import LiveMarkup.Source.Location

namespace LiveMarkup

inductive Lexeme where
  | startTag (name : String)
  | attributeName (name : String)
  | attributeValue (value : String)
  | startTagEnd
  | startTagEndVoid
  | endTag (name : String)
  | text (value : String)
  | comment (value : String)
  | cdata (value : String)
  | doctype (value : String)
  | endOfSource
deriving DecidableEq

structure Token where
  lexeme : Lexeme
  span : Span
deriving DecidableEq

end LiveMarkup
