import LiveMarkup.Json.Path
import LiveMarkup.Text.Blank
import LiveMarkup.Text.Pattern
import LiveMarkup.Text.Word

/-!
# Placeholders

A placeholder is a dotted name, or the self reference, between `${` and `}`. Blanks may stand
just inside the braces.
-/

namespace LiveMarkup

def startsName (c : Char) : Bool := c.isAlpha || c == '_' || c == '$'

def continuesName (c : Char) : Bool := isWord c || c == '$'

def isIdentifier : List Char → Bool
  | [] => false
  | c :: rest => startsName c && rest.all continuesName

/-- Identifiers with dots between them. -/
def isDottedName (cs : List Char) : Bool := (dotParts cs).all isIdentifier

namespace Placeholder

def staysInName (c : Char) : Bool := continuesName c || c == '.'

/-- The name at the start of a text and what follows it. A name goes on as far as its
characters do. -/
def readName (cs : List Char) : List Char × List Char :=
  match cs with
  | '@' :: rest => (['@'], rest)
  | _ => (cs.takeWhile staysInName, cs.dropWhile staysInName)

def isName (name : List Char) : Bool := name == selfReference.toList || isDottedName name

/-- The name in the placeholder at the start of a text, and the text after it. -/
def read? : List Char → Option (List Char × List Char)
  | '$' :: '\x7b' :: rest =>
    let (name, rest) := readName (rest.dropWhile isBlank)
    match rest.dropWhile isBlank with
    | '\x7d' :: rest => if isName name then some (name, rest) else none
    | _ => none
  | _ => none

theorem length_readName_le (cs : List Char) : (readName cs).2.length ≤ cs.length := by
  unfold readName
  split
  · simp
  · exact length_dropWhile_le _ _

theorem length_lt_of_read? {cs name rest : List Char} (h : read? cs = some (name, rest)) :
    rest.length < cs.length := by
  unfold read? at h
  split at h
  · rename_i inner
    dsimp only at h
    split at h
    · rename_i after hafter
      split at h
      · cases h
        have h1 := length_dropWhile_le isBlank (readName (inner.dropWhile isBlank)).2
        have h2 := length_readName_le (inner.dropWhile isBlank)
        have h3 := length_dropWhile_le isBlank inner
        rw [hafter] at h1
        simp only [List.length_cons] at h1 ⊢
        omega
      · cases h
    · cases h
  · cases h

def pattern : Pattern (List Char) := ⟨read?, length_lt_of_read?⟩

def spell (name : String) : String := "$\x7b" ++ name ++ "\x7d"

end Placeholder

end LiveMarkup
