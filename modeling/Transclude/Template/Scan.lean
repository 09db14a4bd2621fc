import Transclude.Template.Parameter

/-!
# Finding templates in text

A template is written between two pairs of colons: a name without bars, and after a bar, if there is
one, metadata. Neither part is empty or holds a line break. The scan goes from left to right and
takes at each place the shortest template that starts there, so the first pair of colons that can
close a template does.
-/

namespace Transclude

namespace Template

/-- What is written between the colons. -/
structure Inner where
  /-- The name. -/
  name : List Char
  /-- What follows the first bar, if there is one. -/
  metadata : Option (List Char)
deriving DecidableEq, Repr

/-- The number of characters of a template, with its colons. -/
def Inner.length (inner : Inner) : Nat :=
  match inner.metadata with
  | none => inner.name.length + 4
  | some metadata => inner.name.length + 1 + metadata.length + 4

/-- The metadata up to the first pair of colons on the line. -/
def untilColons : List Char → Option (List Char)
  | [] => none
  | ':' :: ':' :: _ => some []
  | c :: rest => if c = '\n' then none else (untilColons rest).map (c :: ·)

/-- The rest of a template after the first character of its name. -/
def afterName : List Char → Option Inner
  | [] => none
  | ':' :: ':' :: _ => some ⟨[], none⟩
  | ['|'] => none
  -- At the first bar the name ends, and the metadata have at least one character.
  | '|' :: c :: rest =>
    if c = '\n' then none else (untilColons rest).map fun metadata => ⟨[], some (c :: metadata)⟩
  | c :: rest =>
    if c = '\n' then none
    else (afterName rest).map fun inner => { inner with name := c :: inner.name }

/-- The shortest template that a text starts with. -/
def atStart : List Char → Option Inner
  | ':' :: ':' :: c :: rest =>
    if c = '|' ∨ c = '\n' then none
    else (afterName rest).map fun inner => { inner with name := c :: inner.name }
  | _ => none

/-- A template in a text. -/
structure Occurrence where
  /-- The place of its first character. -/
  start : Nat
  /-- The place after its last character. -/
  stop : Nat
  /-- The name. -/
  name : String
  /-- What follows the first bar, if there is one. -/
  metadata : Option String
deriving DecidableEq, Repr, Inhabited

/-- The template with given inner parts at a place. -/
def Inner.at (inner : Inner) (start : Nat) : Occurrence where
  start := start
  stop := start + inner.length
  name := String.ofList inner.name
  metadata := inner.metadata.map String.ofList

/-- The templates in the rest of a text, of which `pos` characters came before and the first `skip`
belong to the last template found. -/
def scanFrom : (pos skip : Nat) → List Char → List Occurrence
  | _, _, [] => []
  | pos, skip + 1, _ :: rest => scanFrom (pos + 1) skip rest
  | pos, 0, c :: rest =>
    match atStart (c :: rest) with
    -- The search goes on after the template, so templates never overlap.
    | some inner => inner.at pos :: scanFrom (pos + 1) (inner.length - 1) rest
    | none => scanFrom (pos + 1) 0 rest

/-- The templates in a text, from left to right. -/
def scan (text : String) : List Occurrence := scanFrom 0 0 text.toList

/-- The call that a template in a text stands for. -/
def Occurrence.call (o : Occurrence) : TemplateCall := ⟨o.name, Parameter.parse o.metadata⟩

/-! ## Cutting a text at its templates -/

/-- A piece of a text that is cut at templates. -/
inductive Piece where
  /-- Text between templates. -/
  | literal (text : String)
  /-- A template. -/
  | call (call : TemplateCall)
deriving DecidableEq, Repr, Inhabited

/-- The characters of a text between two places. -/
def slice (text : List Char) (start stop : Nat) : String :=
  String.ofList ((text.drop start).take (stop - start))

/-- The pieces of a text from the place `pos` on. -/
def piecesFrom (text : List Char) (pos : Nat) : List Occurrence → List Piece
  | [] => if pos < text.length then [.literal (slice text pos text.length)] else []
  | o :: rest =>
    let later := .call o.call :: piecesFrom text o.stop rest
    if pos < o.start then .literal (slice text pos o.start) :: later else later

/-- Cuts a text at templates. No piece of text before, between or after them is empty. -/
def pieces (text : String) (occurrences : List Occurrence) : List Piece :=
  piecesFrom text.toList 0 occurrences

end Template

end Transclude
