import Transclude.Run.Exclusion

/-!
# Which tags are excluded

The excluded tags are those of a base set with the changes to it. A tag is excluded exactly if the
changes map it to what counts as true, or leave it out and it is in the base set
(`excludes_configure`). So the order of the changes does not matter, nor that of the base set.
-/

namespace Transclude

/-- A value is the same as a text only if it is that text. -/
theorem Value.same_str {v : Value} {s : String} : v.same (.str s) = true ↔ v = .str s := by
  cases v <;> simp [Value.same, sameScalar, sameMeasure, measure?]

/-- Only a text is the same as a text. -/
theorem Value.str_same {v : Value} {s : String} : (Value.str s).same v = true ↔ .str s = v := by
  cases v <;> simp [Value.same, sameScalar, sameMeasure, measure?]

namespace Tags

variable {tags : Tags} {s : String}

/-- A text is in a set of tags if it is a member. -/
theorem has_str : has tags (.str s) = true ↔ .str s ∈ tags := by
  simp [has, Value.same_str]

/-- The texts in a set to which a tag is added. -/
theorem str_mem_add {tag : Value} : .str s ∈ add tags tag ↔ .str s ∈ tags ∨ tag = .str s := by
  unfold add
  split
  · next hhas =>
    constructor
    · exact .inl
    · rintro (hmem | rfl)
      · exact hmem
      · exact has_str.mp hhas
  · rw [List.mem_append, List.mem_singleton, eq_comm]

/-- The texts in a set from which a text is taken away. -/
theorem str_mem_discard {t : String} :
    .str s ∈ discard tags (.str t) ↔ .str s ∈ tags ∧ s ≠ t := by
  simp [discard, List.mem_filter, ← Bool.not_eq_true, Value.same_str]

/-- The texts in a set to which tags are added one after the other. -/
theorem str_mem_foldl_add {values : List Value} :
    .str s ∈ values.foldl add tags ↔ .str s ∈ tags ∨ .str s ∈ values := by
  induction values generalizing tags with
  | nil => simp
  | cons value rest ih =>
    rw [List.foldl_cons, ih, str_mem_add, List.mem_cons, or_assoc]
    simp only [eq_comm]

/-! ## Base sets -/

/-- The members of the base set that a value stands for, if it stands for one: the tags of code if
there is nothing, or the items of a list, the names of an object or its keys. Only what is neither a
list nor an object can be a member. -/
def baseMembers? : Value → Option (List Value)
  | .null => some code
  | .arr items => if items.all Value.isAtomic then some items else none
  | .obj fields => some (fields.map fun field => .str field.1)
  | .map entries =>
    if (entries.map Prod.fst).all Value.isAtomic then some (entries.map Prod.fst) else none
  | _ => none

/-- A list of values that can be members is a set with the texts among them. -/
theorem ofList_of_isAtomic {values : List Value} (h : values.all Value.isAtomic = true) :
    ∃ tags, ofList values = .ok tags ∧ ∀ s, .str s ∈ tags ↔ .str s ∈ values := by
  refine ⟨values.foldl add [], by rw [ofList, if_pos h], fun s => ?_⟩
  rw [str_mem_foldl_add]
  simp

/-- A value that stands for a base set is a set with the texts among its members. -/
theorem ofValue_of_baseMembers? {base : Value} {members : List Value}
    (h : baseMembers? base = some members) :
    ∃ tags, ofValue base = .ok tags ∧ ∀ s, .str s ∈ tags ↔ .str s ∈ members := by
  cases base with
  | null =>
    obtain rfl := Option.some.inj h
    exact ⟨code, rfl, fun s => Iff.rfl⟩
  | arr items =>
    simp only [baseMembers?, Option.ite_none_right_eq_some] at h
    obtain ⟨hatomic, heq⟩ := h
    obtain rfl := Option.some.inj heq
    exact ofList_of_isAtomic hatomic
  | obj fields =>
    obtain rfl := Option.some.inj h
    exact ofList_of_isAtomic (by simp [Value.isAtomic])
  | map entries =>
    simp only [baseMembers?, Option.ite_none_right_eq_some] at h
    obtain ⟨hatomic, heq⟩ := h
    obtain rfl := Option.some.inj heq
    exact ofList_of_isAtomic hatomic
  | bool b => simp [baseMembers?] at h
  | int i => simp [baseMembers?] at h
  | float x => simp [baseMembers?] at h
  | str t => simp [baseMembers?] at h

/-! ## Changes -/

/-- The changes of texts among changes. -/
def textChanges (changes : Entries) : Fields :=
  changes.filterMap fun change =>
    match change.1 with
    | .str s => some (s, change.2)
    | _ => none

/-- The changes of texts that a value stands for, if it stands for some: none if there is nothing, or
those of a mapping, which has no name twice. -/
def changes? (value : Value) : Option Fields :=
  match changesOf value with
  | .ok changes =>
    if ((textChanges changes).map Prod.fst).Nodup then some (textChanges changes) else none
  | .error _ => none

/-- Whether a tag is to be excluded: the changes map it to what counts as true, or leave it out and
it is a member of the base set. -/
def Chosen (members : List Value) (changes : Fields) (tag : String) : Prop :=
  (∃ v, (tag, v) ∈ changes ∧ v.holds = true) ∨
    (tag ∉ changes.map Prod.fst ∧ .str tag ∈ members)

/-- A change of what is no text does not touch the texts of a set. -/
theorem str_mem_change {key : Value} (hkey : ∀ t, key ≠ .str t) (b : Bool) :
    .str s ∈ (if b then add tags key else discard tags key) ↔ .str s ∈ tags := by
  cases b with
  | true =>
    have hne : key ≠ .str s := hkey s
    simp [str_mem_add, hne]
  | false =>
    have hsame : (Value.str s).same key = false :=
      Bool.eq_false_iff.mpr fun h => hkey s (Value.str_same.mp h).symm
    simp [discard, hsame]

/-- Changes without a name twice change the texts of a set as they say, in whatever order. -/
theorem str_mem_adjust {changes : Entries}
    (h : ((textChanges changes).map Prod.fst).Nodup) :
    .str s ∈ adjust tags changes ↔ Chosen tags (textChanges changes) s := by
  induction changes generalizing tags with
  | nil => simp [adjust, textChanges, Chosen]
  | cons change rest ih =>
    obtain ⟨key, value⟩ := change
    by_cases hkey : ∃ name, key = .str name
    · obtain ⟨name, rfl⟩ := hkey
      have htexts : textChanges ((.str name, value) :: rest) =
          (name, value) :: textChanges rest := rfl
      rw [htexts] at h ⊢
      obtain ⟨hname, hrest⟩ := List.nodup_cons.mp h
      have hfirst : .str s ∈ adjust tags ((.str name, value) :: rest) ↔
          Chosen (if value.holds then add tags (.str name) else discard tags (.str name))
            (textChanges rest) s := ih hrest
      rw [hfirst]
      unfold Chosen
      by_cases hs : s = name
      · -- No later change is about this tag.
        subst hs
        have hlater : ∀ v, (s, v) ∉ textChanges rest :=
          fun v hv => hname (List.mem_map.mpr ⟨_, hv, rfl⟩)
        cases hholds : value.holds <;> simp [hlater, hname, hholds, str_mem_add, str_mem_discard]
      · cases value.holds <;> simp [hs, Ne.symm hs, str_mem_add, str_mem_discard]
    · -- What is no text has no part in the changes of texts.
      have hother : ∀ t, key ≠ .str t := fun t heq => hkey ⟨t, heq⟩
      have htexts : textChanges ((key, value) :: rest) = textChanges rest := by
        cases key with
        | str t => exact absurd rfl (hother t)
        | _ => rfl
      rw [htexts] at h ⊢
      have hfirst : .str s ∈ adjust tags ((key, value) :: rest) ↔
          Chosen (if value.holds then add tags key else discard tags key) (textChanges rest) s :=
        ih h
      rw [hfirst]
      unfold Chosen
      rw [str_mem_change hother]

/-- A base set and changes to it make a set of tags, by which an element is excluded exactly if its
tag is chosen by them. -/
theorem excludes_configure {base changes : Value} {members : List Value} {fields : Fields}
    (hbase : baseMembers? base = some members) (hchanges : changes? changes = some fields) :
    ∃ tags, configure base changes = .ok tags ∧ ∀ tag properties,
      tags.excludes (.element tag properties) = .ok true ↔ Chosen members fields tag := by
  obtain ⟨start, hstart, hmembers⟩ := ofValue_of_baseMembers? hbase
  have hexcludes (tags : Tags) (tag : String) (properties : Fields) :
      tags.excludes (.element tag properties) = .ok true ↔ .str tag ∈ tags := by
    have heq : tags.excludes (.element tag properties) = .ok (has tags (.str tag)) := rfl
    rw [heq, Except.ok.injEq, has_str]
  have hchosen (tag : String) : Chosen start fields tag ↔ Chosen members fields tag := by
    unfold Chosen
    rw [hmembers]
  unfold changes? at hchanges
  cases hgiven : changesOf changes with
  | error fault => simp [hgiven] at hchanges
  | ok given =>
    simp only [hgiven, Option.ite_none_right_eq_some] at hchanges
    obtain ⟨hnodup, heq⟩ := hchanges
    obtain rfl := Option.some.inj heq
    refine ⟨adjust start given, by rw [configure, hstart, hgiven]; rfl, fun tag properties => ?_⟩
    rw [hexcludes, str_mem_adjust hnodup, hchosen]

end Tags

end Transclude
