import LiveMarkup.Json.Path
import LiveMarkup.Text.Digit
import LiveMarkup.Text.Pattern

/-!
# Markers

While a template is compiled each placeholder is written as a marker `${*n*}`, where `n` is the
place of its name in the list of names. A text is split into markers and the literal runs
between them.
-/

namespace LiveMarkup

namespace Marker

/-- The digits in the marker at the start of a text, and the text after it. -/
def read? : List Char → Option (List Char × List Char)
  | '$' :: '\x7b' :: '*' :: rest =>
    match rest.takeWhile isDecimalDigit, rest.dropWhile isDecimalDigit with
    | d :: digits, '*' :: '\x7d' :: rest => some (d :: digits, rest)
    | _, _ => none
  | _ => none

theorem length_lt_of_read? {cs digits rest : List Char} (h : read? cs = some (digits, rest)) :
    rest.length < cs.length := by
  unfold read? at h
  split at h
  · rename_i inner
    split at h
    · rename_i hafter
      cases h
      have h1 := length_dropWhile_le isDecimalDigit inner
      rw [hafter] at h1
      simp only [List.length_cons] at h1 ⊢
      omega
    · cases h
  · cases h

/-- The pattern of a marker. What it says is its digits, of any script. -/
def pattern : Pattern (List Char) := ⟨read?, length_lt_of_read?⟩

def spellDigits (digits : List Char) : List Char :=
  '$' :: '\x7b' :: '*' :: (digits ++ ['*', '\x7d'])

def spell (n : Nat) : List Char := spellDigits (Nat.toDigits 10 n)

end Marker

/-- A part of a text: a literal run that is not empty, or a marker with its number. -/
inductive Segment where
  | literal (text : String)
  | marker (index : Nat)
deriving DecidableEq

namespace Segment

/-- The literal run that has been gathered in reverse, unless it is empty. -/
def ofRun (run : List Char) : List Segment :=
  if run.isEmpty then [] else [.literal (String.ofList run.reverse)]

/-- A marker counts by its number. One without a number below `2 ^ 64` in ASCII digits is a
literal of its own. -/
def ofDigits (digits : List Char) : Segment :=
  match naturalOfDigits? digits with
  | some n => .marker n
  | none => .literal (String.ofList (Marker.spellDigits digits))

/-- The segments of the pieces that follow a run gathered in reverse. -/
def ofPieces (run : List Char) : List (Piece (List Char)) → List Segment
  | [] => ofRun run
  | .plain c :: rest => ofPieces (c :: run) rest
  | .found digits :: rest => ofRun run ++ ofDigits digits :: ofPieces [] rest

end Segment

def segments (text : String) : List Segment :=
  Segment.ofPieces [] (Marker.pattern.split text.toList)

def firstMarker? (text : String) : Option String :=
  (Marker.pattern.occurrences text.toList).head?.map fun digits =>
    String.ofList (Marker.spellDigits digits)

def hasMarkers (text : String) : Bool := !(Marker.pattern.occurrences text.toList).isEmpty

/-- The members of a list, each where it stands first. -/
def firstOccurrences (ns : List Nat) : List Nat :=
  ns.foldl (fun seen n => if seen.contains n then seen else seen ++ [n]) []

/-- The numbers of the markers in a text, each once, in order of first occurrence. -/
def markerIndices (text : String) : List Nat :=
  firstOccurrences ((segments text).filterMap fun
    | .literal _ => none
    | .marker n => some n)

end LiveMarkup
