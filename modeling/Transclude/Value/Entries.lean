import Transclude.Value.Same

/-!
# Entries with keys of any type

An object that is made of pairs takes every key that is neither a list nor an object. Two keys that
are the same value are one key: the first stays, and the last value counts. If all keys are texts,
the object has fields.
-/

namespace Transclude

/-- Entries of an object, in order, with keys of any type. -/
abbrev Entries := List (Value × Value)

namespace Entries

/-- The value of the entry for a key. -/
def get? (key : Value) : Entries → Option Value
  | [] => none
  | (k, v) :: rest => if k.same key then some v else get? key rest

/-- Sets the entry for a key: in its place if it is there, at the end if it is not. -/
def set (key value : Value) : Entries → Entries
  | [] => [(key, value)]
  | (k, v) :: rest => if k.same key then (k, value) :: rest else (k, v) :: set key value rest

/-- The entries that fields are. -/
def ofFields (fields : Fields) : Entries := fields.map fun field => (.str field.1, field.2)

/-- The fields that entries are, if all keys are texts. -/
def fields? : Entries → Option Fields
  | [] => some []
  | (.str name, value) :: rest => (fields? rest).map ((name, value) :: ·)
  | _ :: _ => none

/-- The object that has given entries. -/
def object (entries : Entries) : Value :=
  match fields? entries with
  | some fields => .obj fields
  | none => .map entries

/-- Fields have texts as keys. -/
theorem fields?_ofFields (fields : Fields) : fields? (ofFields fields) = some fields := by
  induction fields with
  | nil => rfl
  | cons field rest ih => simp [ofFields, fields?] at ih ⊢; exact ih

/-- The object that has fields as its entries has those fields. -/
theorem object_ofFields (fields : Fields) : object (ofFields fields) = .obj fields := by
  simp [object, fields?_ofFields]

end Entries

namespace Value

/-- The entries of an object. -/
def entries? : Value → Option Entries
  | .obj fields => some (Entries.ofFields fields)
  | .map entries => some entries
  | _ => none

/-- Sets a field of an object. -/
def setField (object : Value) (name : String) (value : Value) : Value :=
  match object with
  | .obj fields => .obj (Fields.set name value fields)
  | .map entries => .map (Entries.set (.str name) value entries)
  | other => other

/-- Setting a field of an object sets it among its fields. -/
@[simp] theorem setField_obj (fields : Fields) (name : String) (value : Value) :
    setField (.obj fields) name value = .obj (fields.set name value) := rfl

end Value

end Transclude
