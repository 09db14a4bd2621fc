/-!
# Character references

How text is written inside HTML so that no character of it is taken for markup: between tags the
ampersand and the two angle brackets are replaced by references, and inside an attribute both
quotation marks as well.
-/

namespace Transclude.Text

/-- One character of a text between tags. -/
def escapeChar (c : Char) : List Char :=
  if c = '&' then "&amp;".toList
  else if c = '<' then "&lt;".toList
  else if c = '>' then "&gt;".toList
  else [c]

/-- One character of an attribute's value. -/
def escapeAttrChar (c : Char) : List Char :=
  if c = '"' then "&quot;".toList
  else if c = '\'' then "&#x27;".toList
  else escapeChar c

/-- A text as it is written between tags. -/
def escape (s : String) : String := String.ofList (s.toList.flatMap escapeChar)

/-- A text as it is written as the value of an attribute. -/
def escapeAttr (s : String) : String := String.ofList (s.toList.flatMap escapeAttrChar)

end Transclude.Text
