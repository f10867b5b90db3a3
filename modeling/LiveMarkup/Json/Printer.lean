import LiveMarkup.Decimal.Layout
import LiveMarkup.Json.Value

namespace LiveMarkup

namespace JsonNumber

/-- Doubles are positional from `0.00001` up to sixteen digits before the point. -/
def layout : DecimalLayout := ⟨-5, 15⟩

def text : JsonNumber → String
  | .integer n => toString n
  | .double x => layout.writeFloat x

end JsonNumber

namespace Json

/-- The two last digits of a control character's escape. -/
def hexPair (n : Nat) : List Char := [Nat.digitChar (n / 16), Nat.digitChar (n % 16)]

def escapeChar (c : Char) : List Char :=
  if c = '"' then ['\\', '"']
  else if c = '\\' then ['\\', '\\']
  else if c = '\n' then ['\\', 'n']
  else if c = '\r' then ['\\', 'r']
  else if c = '\t' then ['\\', 't']
  else if c.toNat = 8 then ['\\', 'b']
  else if c.toNat = 12 then ['\\', 'f']
  else if c.toNat < 32 then ['\\', 'u', '0', '0'] ++ hexPair c.toNat
  else [c]

def quote (s : String) : String :=
  String.ofList ('"' :: s.toList.flatMap escapeChar ++ ['"'])

mutual

def print : Json → String
  | .null => "null"
  | .bool true => "true"
  | .bool false => "false"
  | .number n => n.text
  | .string s => quote s
  | .array items => "[" ++ ",".intercalate (printAll items) ++ "]"
  | .object members => "\x7b" ++ ",".intercalate (printMembers members) ++ "\x7d"

def printAll : List Json → List String
  | [] => []
  | v :: rest => print v :: printAll rest

def printMembers : List (String × Json) → List String
  | [] => []
  | m :: rest => printMember m :: printMembers rest

def printMember : String × Json → String
  | (name, v) => quote name ++ ":" ++ print v

end

mutual

/-- The text a value stands for in a page: nothing for null, the text itself for a string, the
items joined with commas for an array, and JSON for an object. -/
def toText : Json → String
  | .null => ""
  | .bool true => "true"
  | .bool false => "false"
  | .number n => n.text
  | .string s => s
  | .array items => ",".intercalate (toTexts items)
  | .object members => print (.object members)

def toTexts : List Json → List String
  | [] => []
  | v :: rest => toText v :: toTexts rest

end

end Json

end LiveMarkup
