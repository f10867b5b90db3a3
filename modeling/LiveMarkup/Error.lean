import LiveMarkup.Source.Diagnostic

namespace LiveMarkup

inductive EngineError where
  /-- The markup has errors. The spans are in the source with its placeholders as markers. -/
  | templateParse (source : Source) (errors : List Diagnostic)
  /-- The text of a template holds a marker of its own. -/
  | reservedMarker (url marker : String)
  /-- A recorded path leads nowhere. -/
  | bindingResolution (property path : String)
  /-- A repeated region was given something that is not an array. -/
  | invalidSequence (property found : String)
  | unknownClass (name : String)

namespace EngineError

def summary (source : Source) : List Diagnostic → String
  | [] => "no diagnostics"
  | [d] => d.display source
  | d :: rest => d.display source ++ " (and " ++ toString rest.length ++ " more)"

def message : EngineError → String
  | .templateParse source errors =>
    "template parse error in " ++ source.url ++ ": " ++ summary source errors
  | .reservedMarker url marker =>
    "template " ++ url ++ " contains the reserved marker `" ++ marker ++ "`"
  | .bindingResolution property path =>
    "binding for `" ++ property ++ "` could not be resolved at " ++ path
  | .invalidSequence property found =>
    "iteration property `" ++ property ++ "` expects a sequence, got " ++ found
  | .unknownClass name => "unknown component class `" ++ name ++ "`"

end EngineError

end LiveMarkup
