import LiveMarkup.Markup.Tag
import LiveMarkup.Markup.Tree

namespace LiveMarkup

def escapeTextChar (c : Char) : List Char :=
  if c = '&' then "&amp;".toList
  else if c = '<' then "&lt;".toList
  else if c = '>' then "&gt;".toList
  else [c]

def escapeText (s : String) : String := String.ofList (s.toList.flatMap escapeTextChar)

def escapeAttributeChar (c : Char) : List Char :=
  if c = '&' then "&amp;".toList else if c = '"' then "&quot;".toList else [c]

def escapeAttribute (s : String) : String := String.ofList (s.toList.flatMap escapeAttributeChar)

def renderAttribute (a : String × String) : String :=
  " " ++ a.1 ++ "=\"" ++ escapeAttribute a.2 ++ "\""

def renderStartTag (name : String) (attributes : Table String) : String :=
  "<" ++ name ++ String.join (attributes.entries.map renderAttribute) ++ ">"

def renderEndTag (name : String) : String := "</" ++ name ++ ">"

namespace Tree

mutual

/-- The markup of a tree. `raw` says that it stands directly inside a raw element. -/
def renderIn (raw : Bool) : Tree → String
  | node ⟨.text value, _, _⟩ _ => if raw then value else escapeText value
  | node ⟨.comment value, _, _⟩ _ => "<!--" ++ value ++ "-->"
  | node ⟨.element name, attributes, _⟩ ts =>
    if isVoid name then renderStartTag name attributes
    else
      renderStartTag name attributes ++ renderAll (tagContent name == .rawText) ts ++
        renderEndTag name

def renderAll (raw : Bool) : List Tree → String
  | [] => ""
  | t :: ts => renderIn raw t ++ renderAll raw ts

end

def render (t : Tree) : String := t.renderIn false

end Tree

end LiveMarkup
