/-!
# Template parameters

What follows the name of a template is a list of parameters with bars between them. There is no
escaping: every bar starts a new parameter. The first equals sign of a parameter separates its key
from its value, unless the key would be empty.
-/

namespace Transclude

/-- A parameter of a template call. -/
inductive Parameter where
  /-- A parameter without a key. -/
  | bare (text : String)
  /-- A parameter with a key. -/
  | keyed (key value : String)
deriving DecidableEq, Repr, Inhabited

namespace Parameter

/-- Cuts a text at its bars. There is one part more than there are bars. -/
def splitBars : List Char → List (List Char)
  | [] => [[]]
  | c :: rest =>
    if c = '|' then [] :: splitBars rest
    else
      match splitBars rest with
      | part :: parts => (c :: part) :: parts
      | [] => [[c]]

/-- The parameter that a part stands for. -/
def ofPart (part : List Char) : Parameter :=
  match part.takeWhile (· != '='), part.dropWhile (· != '=') with
  | k :: key, _ :: value => .keyed (String.ofList (k :: key)) (String.ofList value)
  | _, _ => .bare (String.ofList part)

/-- The parameters that the text after the name and its bar stands for. Without such a text there
are none. -/
def parse (metadata : Option String) : List Parameter :=
  match metadata with
  | none => []
  | some text => if text = "" then [] else (splitBars text.toList).map ofPart

end Parameter

/-- A call of a template: the name of the file that holds it, and the parameters. -/
structure TemplateCall where
  /-- The name of the file. -/
  file : String
  /-- The parameters, in order. -/
  parameters : List Parameter := []
deriving DecidableEq, Repr, Inhabited

end Transclude
