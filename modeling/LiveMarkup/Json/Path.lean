import LiveMarkup.Json.Value

namespace LiveMarkup

def selfReference : String := "@"

/-- The parts of a text between its dots. There is always one more part than dots. -/
def dotParts : List Char → List (List Char)
  | [] => [[]]
  | c :: rest =>
    match dotParts rest with
    | [] => [[c]]
    | part :: parts => if c = '.' then [] :: part :: parts else (c :: part) :: parts

def digitsValue (digits : List Char) : Nat :=
  digits.foldl (fun n c => 10 * n + (c.toNat - 48)) 0

/-- The number below `2 ^ 64` that a nonempty run of ASCII digits writes. -/
def naturalOfDigits? (digits : List Char) : Option Nat :=
  if digits.isEmpty || !digits.all Char.isDigit then none
  else
    let n := digitsValue digits
    if n < Nat.pow 2 64 then some n else none

/-- An array index is written in digits, with a plus in front if one likes. -/
def arrayIndex? : List Char → Option Nat
  | '+' :: digits => naturalOfDigits? digits
  | digits => naturalOfDigits? digits

namespace Json

def step? (v : Json) (part : List Char) : Option Json :=
  match v with
  | .object members => Table.get? ⟨members⟩ (String.ofList part)
  | .array items => (arrayIndex? part).bind fun i => items[i]?
  | _ => none

def follow? (v : Json) : List (List Char) → Option Json
  | [] => some v
  | part :: parts => (v.step? part).bind fun w => w.follow? parts

/-- The value at the end of a dotted path. -/
def resolve? (v : Json) (path : String) : Option Json :=
  if path = "" || path = selfReference then some v else v.follow? (dotParts path.toList)

end Json

end LiveMarkup
