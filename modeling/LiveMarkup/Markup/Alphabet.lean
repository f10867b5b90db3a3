namespace LiveMarkup

def isMarkupSpace (c : Char) : Bool :=
  c = ' ' || c = '\t' || c = '\n' || c = '\r' || c = '\x0c'

def isHexDigit (c : Char) : Bool :=
  c.isDigit || ('a' ≤ c && c ≤ 'f') || ('A' ≤ c && c ≤ 'F')

/-- Only the first two of them enclose attribute values. -/
def isQuoteMark (c : Char) : Bool := c = '\'' || c = '"' || c = '`'

/-- The characters that end the name of a tag or of an attribute. -/
def endsName (c : Char) : Bool :=
  isMarkupSpace c || c = '>' || c = '<' || c = '/' || c = '\'' || c = '"' || c = '='

/-- Equal but for the case of ASCII letters. -/
def sameName (a b : String) : Bool := a.toLower == b.toLower

/-- The longest run at the start of a text before a place where `stop` holds of the rest. -/
def runUntil (stop : List Char → Bool) : List Char → List Char
  | [] => []
  | c :: rest => if stop (c :: rest) then [] else c :: runUntil stop rest

/-- Each line ends in a line feed, whether it ended in one, in a carriage return or in both. -/
def unifyLineEnds : List Char → List Char
  | [] => []
  | '\r' :: '\n' :: rest => '\n' :: unifyLineEnds rest
  | '\r' :: rest => '\n' :: unifyLineEnds rest
  | c :: rest => c :: unifyLineEnds rest

end LiveMarkup
