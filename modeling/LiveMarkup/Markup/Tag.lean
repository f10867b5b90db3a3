import LiveMarkup.Markup.Alphabet

namespace LiveMarkup

inductive TagContent where
  /-- Verbatim up to the end tag. -/
  | rawText
  /-- Verbatim up to the end tag, with character references decoded. -/
  | escapableText
  | markup
deriving DecidableEq

def voidNames : List String :=
  ["area", "base", "br", "col", "embed", "hr", "img", "input", "link", "meta", "param", "source",
    "track", "wbr"]

/-- An element of that name has no content and no end tag. -/
def isVoid (name : String) : Bool := voidNames.contains name.toLower

def tagContent (name : String) : TagContent :=
  match name.toLower with
  | "script" => .rawText
  | "style" => .rawText
  | "textarea" => .escapableText
  | "title" => .escapableText
  | _ => .markup

def isFormControl (name : String) : Bool := ["input", "textarea", "select"].contains name.toLower

/-- White space inside an element of that name is never dropped. -/
def keepsSpace (name : String) : Bool := sameName name "pre" || tagContent name != .markup

end LiveMarkup
