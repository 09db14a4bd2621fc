import Transclude.Decimal.Layout
import Transclude.Text.Quoted
import Transclude.Value.Basic

/-!
# Displaying values

A value has two written forms. As a literal a text stands between quotes; as plain text it is the
text itself. All other values look the same in both.
-/

namespace Transclude

/-- Numbers are written with the fewest digits that identify them, positionally from a
ten-thousandth up to below ten to the sixteenth, otherwise with a signed exponent of two digits or
more. -/
def numberLayout : Decimal.Layout where
  positionalFrom := -4
  positionalBelow := 16
  exponentWidth := 2

namespace Value

mutual

/-- The literal form of a value. -/
def literal : Value → String
  | .null => "None"
  | .bool b => if b then "True" else "False"
  | .int i => toString i
  | .float x => numberLayout.write x
  | .str s => Text.quoted s
  | .arr items => "[" ++ ", ".intercalate (literals items) ++ "]"
  | .obj fields => "\x7b" ++ ", ".intercalate (literalFields fields) ++ "\x7d"
  | .map entries => "\x7b" ++ ", ".intercalate (literalEntries entries) ++ "\x7d"

/-- The literal forms of the items of a list. -/
def literals : List Value → List String
  | [] => []
  | item :: rest => literal item :: literals rest

/-- The literal forms of the fields of an object. -/
def literalFields : List (String × Value) → List String
  | [] => []
  | (key, value) :: rest => (Text.quoted key ++ ": " ++ literal value) :: literalFields rest

/-- The literal forms of the entries of an object. -/
def literalEntries : List (Value × Value) → List String
  | [] => []
  | (key, value) :: rest => (literal key ++ ": " ++ literal value) :: literalEntries rest

end

/-- The plain form of a value. -/
def plain : Value → String
  | .str s => s
  | v => literal v

end Value

end Transclude
