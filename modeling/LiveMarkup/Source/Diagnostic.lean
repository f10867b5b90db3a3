import LiveMarkup.Source.Location

namespace LiveMarkup

inductive Severity where
  | warning
  | error
deriving DecidableEq

namespace Severity

def label : Severity → String
  | .warning => "WARNING"
  | .error => "ERROR"

end Severity

structure Diagnostic where
  span : Span
  message : String
  severity : Severity
deriving DecidableEq

namespace Diagnostic

def error (span : Span) (message : String) : Diagnostic := ⟨span, message, .error⟩

/-- The message with up to 100 characters and two line breaks of the text on each side. -/
def contextual (source : Source) (d : Diagnostic) : String :=
  let (before, rest) := source.context d.span.start 100 3
  d.message ++ " (\"" ++ before ++ "[" ++ d.severity.label ++ " ->]" ++ rest ++ "\")"

def display (source : Source) (d : Diagnostic) : String :=
  d.contextual source ++ ": " ++ source.locationText d.span.start

end Diagnostic

end LiveMarkup
