import Transclude.Value.Basic
import Mathlib.Data.List.Forall2
import Mathlib.Data.List.Nodup

/-!
# Values that are alike

Two values are alike if they differ at most in the order of the fields of objects in them. Numbers
are not identified, so this is finer than sameness. An object is compared by what it gives for each
key, and `get?_setAll` says what that is after several fields are set.
-/

namespace Transclude

namespace Value

/-- Two values differ at most in the order of fields. -/
inductive Alike : Value → Value → Prop where
  /-- Every value is like itself. -/
  | refl (v : Value) : Alike v v
  /-- Lists are alike if their items are, one by one. -/
  | arr {items others : List Value} (h : List.Forall₂ Alike items others) :
    Alike (.arr items) (.arr others)
  /-- Objects are alike if the values of each key are. -/
  | obj {fields others : Fields}
      (h : ∀ key, Option.Rel Alike (fields.get? key) (others.get? key)) :
    Alike (.obj fields) (.obj others)

/-- Two values that need not be there are alike, if they are the same. -/
theorem Alike.rel_refl (v : Option Value) : Option.Rel Alike v v := by
  cases v with
  | none => exact .none
  | some v => exact .some (.refl v)

/-- Lists are alike only if their items are. -/
theorem alike_arr {items others : List Value} :
    Alike (.arr items) (.arr others) ↔ List.Forall₂ Alike items others := by
  constructor
  · intro h
    cases h with
    | refl => exact List.forall₂_same.mpr fun v _ => .refl v
    | arr h => exact h
  · exact .arr

/-- Objects are alike only if the values of each key are. -/
theorem alike_obj {fields others : Fields} :
    Alike (.obj fields) (.obj others) ↔
      ∀ key, Option.Rel Alike (fields.get? key) (others.get? key) := by
  constructor
  · intro h
    cases h with
    | refl => exact fun key => Alike.rel_refl _
    | obj h => exact h
  · exact .obj

end Value

namespace Fields

/-- A key that names no field has no value. -/
theorem get?_eq_none {key : String} {fields : Fields} :
    fields.get? key = none ↔ key ∉ fields.map Prod.fst := by
  induction fields with
  | nil => simp [get?]
  | cons field rest ih =>
    obtain ⟨name, value⟩ := field
    by_cases h : name = key
    · simp [get?, h]
    · simp [get?, h, ih, Ne.symm h]

/-- Only an empty list of fields gives no value for any key. -/
theorem eq_nil_iff {fields : Fields} : fields = [] ↔ ∀ key, fields.get? key = none := by
  constructor
  · rintro rfl key
    exact get?_nil key
  · intro h
    cases fields with
    | nil => rfl
    | cons field rest =>
      have hfirst := h field.1
      simp [get?] at hfirst

/-- Fields one after the other give the value of the first that has the key. -/
theorem get?_append (key : String) (fields others : Fields) :
    Fields.get? key (fields ++ others) = (fields.get? key).or (others.get? key) := by
  induction fields with
  | nil => rfl
  | cons field rest ih =>
    obtain ⟨name, value⟩ := field
    by_cases h : name = key
    · simp [get?, h]
    · simpa [get?, h] using ih

/-- Leaving out fields leaves the values of all other keys. -/
theorem get?_without (key : String) (keys : List String) (fields : Fields) :
    (fields.without keys).get? key = if key ∈ keys then none else fields.get? key := by
  induction fields with
  | nil => simp [without, get?]
  | cons field rest ih =>
    obtain ⟨name, value⟩ := field
    unfold without at ih ⊢
    by_cases hname : name ∈ keys
    · by_cases h : name = key
      · subst h
        simpa [hname] using ih
      · simpa [hname, get?, h] using ih
    · by_cases h : name = key
      · subst h
        simp [hname, get?]
      · simpa [hname, get?, h] using ih

/-- Fields with several others set, one after the other. -/
def setAll (fields own : Fields) : Fields :=
  own.foldl (fun fields field => fields.set field.1 field.2) fields

/-- Fields are set one list after the other. -/
theorem setAll_append (fields own others : Fields) :
    fields.setAll (own ++ others) = (fields.setAll own).setAll others := by
  unfold setAll
  rw [List.foldl_append]

/-- Fields that are set have their new value, if no key is set twice, and all others the old one. -/
theorem get?_setAll (key : String) {own : Fields} (h : (own.map Prod.fst).Nodup)
    (fields : Fields) :
    (fields.setAll own).get? key = (own.get? key).or (fields.get? key) := by
  induction own generalizing fields with
  | nil => rfl
  | cons field rest ih =>
    obtain ⟨name, value⟩ := field
    rw [List.map_cons, List.nodup_cons] at h
    have hrest := ih h.2 (fields.set name value)
    rw [get?_set] at hrest
    by_cases hkey : name = key
    · subst hkey
      rw [get?_eq_none.mpr h.1, Option.none_or, if_pos rfl] at hrest
      simpa [setAll, get?] using hrest
    · rw [if_neg hkey] at hrest
      simpa [setAll, get?, hkey] using hrest

end Fields

end Transclude
