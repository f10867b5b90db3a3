import LiveMarkup.Json.Reader

/-!
# Passing over JSON values

A value that nobody asks for only has to have the form of a value. It may nest to any depth, its
numbers may be of any size, and an escape in its strings may write half of a surrogate pair.
-/

namespace LiveMarkup

namespace Json

/-- The text after the exponent of a number, if there is one. -/
def skipExponent? (cs : List Char) : Option (List Char) :=
  match cs with
  | [] => some []
  | c :: rest =>
    if c = 'e' || c = 'E' then
      let digits :=
        match rest with
        | '+' :: rest => rest
        | '-' :: rest => rest
        | _ => rest
      match digits with
      | [] => none
      | d :: rest => if d.isDigit then some (rest.dropWhile Char.isDigit) else none
    else some cs

/-- The text after the fraction and the exponent of a number, if there are any. -/
def skipFraction? : List Char → Option (List Char)
  | '.' :: [] => none
  | '.' :: d :: rest =>
    if d.isDigit then skipExponent? (rest.dropWhile Char.isDigit) else none
  | cs => skipExponent? cs

/-- The text after a number without its sign. A zero is followed by no other digit. -/
def skipNumber? : List Char → Option (List Char)
  | [] => none
  | d :: rest =>
    if d = '0' then if (rest.head?.map Char.isDigit).getD false then none else skipFraction? rest
    else if d.isDigit then skipFraction? (rest.dropWhile Char.isDigit)
    else none

/-- The text after a string whose opening quote has been passed. -/
def skipString? : List Char → Option (List Char)
  | [] => none
  | '"' :: rest => some rest
  | '\\' :: 'u' :: a :: b :: c :: d :: rest =>
    if (hexUnit? [a, b, c, d]).isSome then skipString? rest else none
  | '\\' :: c :: rest => if "\"\\/bfnrt".toList.contains c then skipString? rest else none
  | c :: rest => if c = '\\' || c.toNat < 32 then none else skipString? rest

/-- The text after the name of a member and its colon. -/
def skipName? (cs : List Char) : Option (List Char) :=
  match skipSpace cs with
  | '"' :: rest =>
    match skipString? rest with
    | none => none
    | some rest =>
      match skipSpace rest with
      | ':' :: rest => some rest
      | _ => none
  | _ => none

/-- The text after a value that has no values inside. -/
def skipScalar? : List Char → Option (List Char)
  | 'n' :: 'u' :: 'l' :: 'l' :: rest => some rest
  | 't' :: 'r' :: 'u' :: 'e' :: rest => some rest
  | 'f' :: 'a' :: 'l' :: 's' :: 'e' :: rest => some rest
  | '"' :: rest => skipString? rest
  | '-' :: rest => skipNumber? rest
  | cs => skipNumber? cs

/-- What a bracket that is still open belongs to. -/
inductive Enclosing where
  | array
  | object
deriving DecidableEq

mutual

/-- The text after a value and the rest of all that is open around it. -/
def skipWithin : Nat → List Enclosing → List Char → Option (List Char)
  | 0, _, _ => none
  | fuel + 1, opened, cs =>
    match skipSpace cs with
    | '[' :: rest =>
      match skipSpace rest with
      | ']' :: rest => skipClosing fuel opened rest
      | rest => skipWithin fuel (.array :: opened) rest
    | '\x7b' :: rest =>
      match skipSpace rest with
      | '\x7d' :: rest => skipClosing fuel opened rest
      | rest =>
        match skipName? rest with
        | none => none
        | some rest => skipWithin fuel (.object :: opened) rest
    | rest =>
      match skipScalar? rest with
      | none => none
      | some rest => skipClosing fuel opened rest

/-- The text after the rest of all that is open, from behind a value on. -/
def skipClosing : Nat → List Enclosing → List Char → Option (List Char)
  | _, [], cs => some cs
  | 0, _, _ => none
  | fuel + 1, .array :: opened, cs =>
    match skipSpace cs with
    | ',' :: rest => skipWithin fuel (.array :: opened) rest
    | ']' :: rest => skipClosing fuel opened rest
    | _ => none
  | fuel + 1, .object :: opened, cs =>
    match skipSpace cs with
    | ',' :: rest =>
      match skipName? rest with
      | none => none
      | some rest => skipWithin fuel (.object :: opened) rest
    | '\x7d' :: rest => skipClosing fuel opened rest
    | _ => none

end

def skip? (cs : List Char) : Option (List Char) := skipWithin (cs.length + 1) [] cs

end Json

end LiveMarkup
