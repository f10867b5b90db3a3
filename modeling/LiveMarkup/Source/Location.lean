/-!
# Places in a source text

A location counts bytes of UTF-8 from the start of the text, lines, and characters from the start
of the line. `Location.after` is the location behind a run of characters.
-/

namespace LiveMarkup

structure Location where
  offset : Nat
  line : Nat
  column : Nat
deriving DecidableEq

namespace Location

def start : Location := ⟨0, 0, 0⟩

def advance (l : Location) (c : Char) : Location :=
  if c = '\n' then ⟨l.offset + c.utf8Size, l.line + 1, 0⟩
  else ⟨l.offset + c.utf8Size, l.line, l.column + 1⟩

def after (l : Location) (cs : List Char) : Location := cs.foldl advance l

theorem after_append (l : Location) (cs ds : List Char) :
    l.after (cs ++ ds) = (l.after cs).after ds := by
  simp [after]

end Location

structure Span where
  start : Location
  stop : Location
deriving DecidableEq

structure Source where
  url : String
  content : String
deriving DecidableEq

/-- The characters of the first `n` bytes, and the others. -/
def splitBytes : Nat → List Char → List Char × List Char
  | 0, cs => ([], cs)
  | _, [] => ([], [])
  | n, c :: rest =>
    let (taken, rest) := splitBytes (n - c.utf8Size) rest
    (c :: taken, rest)

/-- The longest run at the start of a text with at most `chars` characters and at most `breaks`
line breaks. -/
def window : Nat → Nat → List Char → List Char
  | 0, _, _ => []
  | _, _, [] => []
  | chars + 1, breaks, c :: rest =>
    if c = '\n' then
      match breaks with
      | 0 => []
      | breaks + 1 => c :: window chars breaks rest
    else c :: window chars breaks rest

namespace Source

/-- The text of a span. A location past the end counts as the end. -/
def text (source : Source) (span : Span) : String :=
  let (before, _) := splitBytes span.stop.offset source.content.toList
  String.ofList (splitBytes span.start.offset before).2

/-- The text before and after a location, each side with at most `maxChars` characters and fewer
than `maxLines` line breaks, or none if `maxLines` is zero. -/
def context (source : Source) (l : Location) (maxChars maxLines : Nat) : String × String :=
  let (before, rest) := splitBytes l.offset source.content.toList
  (String.ofList (window maxChars (maxLines - 1) before.reverse).reverse,
    String.ofList (window maxChars (maxLines - 1) rest))

/-- The name of the text with the line and column of a location. -/
def locationText (source : Source) (l : Location) : String :=
  source.url ++ "@" ++ toString l.line ++ ":" ++ toString l.column

end Source

end LiveMarkup
