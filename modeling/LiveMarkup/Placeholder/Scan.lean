import LiveMarkup.Placeholder.Basic
import LiveMarkup.Placeholder.Marker

namespace LiveMarkup

/-- The place of a name in a list of names, where a new name goes to the end. -/
def indexIn (names : List String) (name : String) : Nat × List String :=
  match names.idxOf? name with
  | some i => (i, names)
  | none => (names.length, names ++ [name])

/-- The text of the pieces, with the names known before and after it. -/
def rewritePieces (names : List String) : List (Piece (List Char)) → List Char × List String
  | [] => ([], names)
  | .plain c :: rest =>
    let (out, names) := rewritePieces names rest
    (c :: out, names)
  | .found name :: rest =>
    let (i, names) := indexIn names (String.ofList name)
    let (out, names) := rewritePieces names rest
    (Marker.spell i ++ out, names)

/-- The text with markers for placeholders, and the names with the new ones behind them. -/
def scanInto (names : List String) (text : String) : String × List String :=
  let (out, names) := rewritePieces names (Placeholder.pattern.split text.toList)
  (String.ofList out, names)

def scan (text : String) : String × List String := scanInto [] text

/-- The placeholder that a marker stands for. A marker beyond the names stands for nothing. -/
def restoreSegment (names : List String) : Segment → String
  | .literal text => text
  | .marker i => (names[i]?.map Placeholder.spell).getD ""

/-- The text with the placeholders that its markers stand for. -/
def restore (names : List String) (text : String) : String :=
  String.join ((segments text).map (restoreSegment names))

end LiveMarkup
