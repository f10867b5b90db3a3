import LiveMarkup.Markup.Alphabet
import LiveMarkup.Text.Pattern

namespace LiveMarkup

namespace Reference

def namedCharacters : List (String × Char) :=
  [("amp", '&'), ("lt", '<'), ("gt", '>'), ("quot", '"'), ("apos", '\''), ("nbsp", '\u00a0')]

def character? (n : Nat) : Option Char := if n.isValidChar then some (Char.ofNat n) else none

def digitValue (c : Char) : Nat :=
  if c.isDigit then c.toNat - 48 else if c.toNat < 97 then c.toNat - 55 else c.toNat - 87

/-- The character whose number is written in base `base` with digits of that class. -/
def numbered? (base : Nat) (isDigit : Char → Bool) (digits : List Char) : Option Char :=
  if digits.isEmpty || !digits.all isDigit then none
  else character? (digits.foldl (fun n c => base * n + digitValue c) 0)

/-- The character that the text between the ampersand and the semicolon stands for. -/
def decodeBody? : List Char → Option Char
  | '#' :: 'x' :: digits => numbered? 16 isHexDigit digits
  | '#' :: 'X' :: digits => numbered? 16 isHexDigit digits
  | '#' :: digits => numbered? 10 Char.isDigit digits
  | name => (namedCharacters.find? fun n => n.1.toList == name).map (·.2)

/-- The most characters between the ampersand and the semicolon. -/
def maxBody : Nat := 31

/-- The character of the reference at the start of a text, and the text after it. -/
def read? : List Char → Option (Char × List Char)
  | '&' :: rest =>
    let body := (rest.take maxBody).takeWhile (· != ';')
    match rest.drop body.length with
    | ';' :: rest => (decodeBody? body).map fun c => (c, rest)
    | _ => none
  | _ => none

theorem length_lt_of_read? {cs rest : List Char} {c : Char} (h : read? cs = some (c, rest)) :
    rest.length < cs.length := by
  unfold read? at h
  split at h
  · rename_i inner
    dsimp only at h
    split at h
    · rename_i after hafter
      obtain ⟨_, _, hc⟩ := Option.map_eq_some_iff.1 h
      cases hc
      have := congrArg List.length hafter
      simp only [List.length_drop, List.length_cons] at this ⊢
      omega
    · cases h
  · cases h

def pattern : Pattern Char := ⟨read?, length_lt_of_read?⟩

def pieceChar : Piece Char → Char
  | .plain c => c
  | .found c => c

def decode (cs : List Char) : List Char := (pattern.split cs).map pieceChar

end Reference

end LiveMarkup
