import LiveMarkup.Json.Printer
import LiveMarkup.Placeholder.Basic

namespace LiveMarkup

/-- What stands for a placeholder whose name leads nowhere. -/
def unresolvedText : String := "undefined"

def fillPiece (data : Json) : Piece (List Char) → List Char
  | .plain c => [c]
  | .found name =>
    (((data.resolve? (String.ofList name)).map Json.toText).getD unresolvedText).toList

def interpolate (text : String) (data : Json) : String :=
  String.ofList ((Placeholder.pattern.split text.toList).flatMap (fillPiece data))

end LiveMarkup
