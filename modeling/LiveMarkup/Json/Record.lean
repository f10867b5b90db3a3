import LiveMarkup.Json.Skip

namespace LiveMarkup

namespace Json

/-- The members under the names of `fields` in an object whose brace has been passed, and the text
after the object. -/
def readFields (fields : List String) :
    Nat → List Char → Option (List (String × Json) × List Char)
  | 0, _ => none
  | fuel + 1, cs =>
    match string? (skipSpace cs) with
    | none => none
    | some (name, rest) =>
      match skipSpace rest with
      | ':' :: rest =>
        let member : Option (List (String × Json) × List Char) :=
          if fields.contains name then
            (valueWithin? maxDepth rest).map fun (v, rest) => ([(name, v)], rest)
          else (skip? rest).map fun rest => ([], rest)
        match member with
        | none => none
        | some (member, rest) =>
          match skipSpace rest with
          | ',' :: rest =>
            (readFields fields fuel rest).map fun (ms, rest) => (member ++ ms, rest)
          | '\x7d' :: rest => some (member, rest)
          | _ => none
      | _ => none

/-- The fields of the record at the start of a text. -/
def fieldsAt? (fields : List String) (cs : List Char) :
    Option (List (String × Json) × List Char) :=
  match skipSpace cs with
  | '\x7b' :: rest =>
    match skipSpace rest with
    | '\x7d' :: rest => some ([], rest)
    | rest => readFields fields (rest.length + 1) rest
  | cs =>
    match valueWithin? maxDepth cs with
    | some (.array values, rest) =>
      if values.length ≤ fields.length then some (fields.zip values, rest) else none
    | _ => none

/-- The fields of the record that a text writes, of those named in `fields`. -/
def readRecord? (fields : List String) (s : String) : Option (List (String × Json)) :=
  match fieldsAt? fields s.toList with
  | some (ms, rest) => if (skipSpace rest).isEmpty then some ms else none
  | none => none

end Json

end LiveMarkup
