import Transclude.Fault
import Transclude.Text.Escape

/-!
# Attributes

How the properties of an element are written as attributes of its tag.
-/

namespace Transclude

/-- The properties whose attributes have other names. -/
def attributeNames : List (String × String) :=
  [("className", "class"), ("htmlFor", "for"), ("httpEquiv", "http-equiv"),
    ("acceptCharset", "accept-charset")]

/-- The name of the attribute for a property. -/
def attributeName (property : String) : String := (attributeNames.lookup property).getD property

/-- The text of a property's value. The items of a list have blanks between them. -/
def propertyText : Value → String
  | .arr items => " ".intercalate (items.map Value.plain)
  | value => value.plain

/-- An attribute with a value. -/
def valuedAttribute (name : String) (value : Value) : String :=
  name ++ "=\"" ++ Text.escapeAttr (propertyText value) ++ "\""

/-- The attribute for a property. A property that is absent or false has none, and one that is true
has only a name. -/
def attribute? (property : String) : Value → Option String
  | .null => none
  | .bool false => none
  | .bool true => some (attributeName property)
  | value => some (valuedAttribute (attributeName property) value)

/-- The attributes for the properties of an element, in order, with blanks between them. -/
def attributes (properties : Fields) : String :=
  " ".intercalate (properties.filterMap fun property => attribute? property.1 property.2)

/-- The attribute for a property with a key of any type. A key that is not a text is written as one
in front of a value, but is not a name by itself. -/
def keyedAttribute? (key value : Value) : Except Fault (Option String) :=
  match key, value with
  | .str property, value => .ok (attribute? property value)
  | _, .null => .ok none
  | _, .bool false => .ok none
  | _, .bool true => .error .wrongType
  | key, value => .ok (some (valuedAttribute key.plain value))

/-- The attributes for an object of properties. -/
def attributesOf : Value → Except Fault String
  | .obj properties => .ok (attributes properties)
  | .map entries => do
    let shown ← entries.mapM fun entry => keyedAttribute? entry.1 entry.2
    return " ".intercalate (shown.filterMap id)
  | _ => .error .plainValue

end Transclude
