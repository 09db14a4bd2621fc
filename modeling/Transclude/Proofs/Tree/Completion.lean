import Transclude.Proofs.Tree.Built

/-!
# Completions

An encoded form that can be read is written again with nothing but its completions: with the fields that
its nodes get where they are missing, and without absent data (`exists_decode_of_isReadable`). Together
with what holds of the trees that are built, this is that the encoded form is faithful
(`encoding_faithful`).
-/

namespace Transclude

/-! ## Completed forms -/

/-- Whether a value is the absent one. -/
def Value.isNull : Value → Bool
  | .null => true
  | _ => false

namespace Kind

/-- Whether a node of a kind can be read from fields: the value of a text is a text, and the properties
of an element are an object, if they are there. -/
def isReadableFrom (fields : Fields) : Kind → Bool
  | .text => (fields.get? "value").all Value.isStr
  | .element => (fields.get? "properties").all fun value => value.isNull || value.isObj
  | _ => true

/-- The fields that a node of a kind gets where they are missing. -/
def defaults : Kind → Fields
  | .root => [("children", .arr [])]
  | .element => [("tagName", .str ""), ("properties", .obj []), ("children", .arr [])]
  | .text | .comment => [("value", .str "")]
  | .doctype | .other => []

/-- The fields of a kind that might as well be missing if their values are absent. -/
def nullable : Kind → List String
  | .element => ["properties", "data"]
  | _ => ["data"]

end Kind

namespace Fields

/-- Whether a node can be read from fields. -/
def isReadable (fields : Fields) : Bool := fields.kind?.any (Kind.isReadableFrom fields)

/-- The fields without those of some keys whose values are absent. -/
def withoutNull (keys : List String) (fields : Fields) : Fields :=
  fields.without (keys.filter fun key => (fields.get? key).any Value.isNull)

/-- The fields with others where these are missing. -/
def filledUp (fields others : Fields) : Fields :=
  fields ++ others.filter fun field => !fields.has field.1

/-- The fields of a node of a kind with those that are missing, and without absent data. -/
def completed (fields : Fields) (k : Kind) : Fields :=
  (fields.withoutNull k.nullable).filledUp k.defaults

end Fields

mutual

/-- The encoded form of a tree with the fields that its nodes get where they are missing, and without
absent data. -/
def Value.completed : Value → Value
  | .obj fields =>
    .obj (match Fields.kind? fields with
      | some k => Fields.completed (if k.isContainer then Value.completedIn fields else fields) k
      | none => fields)
  | value => value

/-- The fields of a node with the forms of its children completed. -/
def Value.completedIn : List (String × Value) → List (String × Value)
  | [] => []
  | (name, value) :: rest =>
    if name = "children" then (name, Value.completedBelow value) :: rest
    else (name, value) :: Value.completedIn rest

/-- A list of encoded trees, each completed. -/
def Value.completedBelow : Value → Value
  | .arr items => .arr (Value.completedAmong items)
  | value => value

/-- The encoded trees of a list, each completed. -/
def Value.completedAmong : List Value → List Value
  | [] => []
  | item :: rest => Value.completed item :: Value.completedAmong rest

end

/-- Whether an encoded tree can be read. -/
def Value.isReadable (d : Value) : Bool := d.everyNode Fields.isReadable

namespace Fields

/-- Absent values are left out of the fields of some keys. -/
theorem get?_withoutNull (keys : List String) (fields : Fields) (key : String) :
    (fields.withoutNull keys).get? key =
      if key ∈ keys ∧ (fields.get? key).any Value.isNull = true then none else fields.get? key := by
  simp only [withoutNull, get?_without, List.mem_filter]

/-- Fields that are there stay as they are when others are filled up. -/
theorem get?_filledUp (fields others : Fields) (key : String) :
    (fields.filledUp others).get? key = (fields.get? key).or (others.get? key) := by
  have hmissing (h : fields.get? key = none) :
      Fields.get? key (others.filter fun field => !fields.has field.1) = others.get? key := by
    induction others with
    | nil => rfl
    | cons field rest ih =>
      obtain ⟨name, value⟩ := field
      by_cases hname : name = key
      · simp [has, hname, h, get?]
      · rw [get?, if_neg hname, List.filter_cons]
        split
        · rw [get?, if_neg hname, ih]
        · exact ih
  rw [filledUp, get?_append]
  cases h : fields.get? key with
  | none => rw [hmissing h]
  | some value => rfl

/-- What completed fields give for a key: what is stated, and otherwise what a node gets. -/
theorem get?_completed (fields : Fields) (k : Kind) (key : String) :
    (fields.completed k).get? key =
      (if key ∈ k.nullable ∧ (fields.get? key).any Value.isNull = true then none
        else fields.get? key).or (k.defaults.get? key) := by
  rw [completed, get?_filledUp, get?_withoutNull]

/-- Fields that mean nothing for the kind stay as they are. -/
theorem get?_completed_of_not_mem {k : Kind} {key : String} (h : key ∉ k.knownFields)
    (fields : Fields) : (fields.completed k).get? key = fields.get? key := by
  have hnullable : key ∉ k.nullable := by
    refine fun hmem => h ?_
    cases k <;> simp_all [Kind.nullable, Kind.knownFields]
  have hdefaults : k.defaults.get? key = none := by
    refine get?_eq_none.mpr fun hmem => h ?_
    cases k <;> simp_all [Kind.defaults, Kind.knownFields]
  rw [get?_completed, if_neg fun hnull => hnullable hnull.1, hdefaults, Option.or_none]

/-- Completed fields state the data that are read, if there are any. -/
theorem get?_completed_data (fields extra : Fields) (k : Kind) :
    (fields.completed k).get? "data" = Info.data? ⟨(fields.get? "data").getD .null, extra⟩ := by
  have hnullable : "data" ∈ k.nullable := by cases k <;> simp [Kind.nullable]
  have hdefaults : k.defaults.get? "data" = none := by cases k <;> simp [Kind.defaults, get?]
  rw [get?_completed, hdefaults, Option.or_none, Info.data?]
  cases fields.get? "data" with
  | none => simp
  | some value => cases value <;> simp [hnullable, Value.isNull]

/-- Completed fields list the children that are stated, or else those that a node gets. -/
theorem get?_completed_children (fields : Fields) (k : Kind) :
    (fields.completed k).get? "children" =
      (fields.get? "children").or (k.defaults.get? "children") := by
  have hnullable : "children" ∉ k.nullable := by cases k <;> simp [Kind.nullable]
  rw [get?_completed, if_neg fun hnull => hnullable hnull.1]

end Fields

/-- The children of completed fields are completed. -/
theorem Value.get?_completedIn (fields : Fields) (key : String) :
    Fields.get? key (completedIn fields) =
      if key = "children" then (fields.get? "children").map completedBelow else fields.get? key := by
  induction fields with
  | nil => simp [completedIn, Fields.get?]
  | cons field rest ih =>
    obtain ⟨name, value⟩ := field
    rw [completedIn]
    by_cases hname : name = "children"
    · by_cases hkey : key = "children"
      · simp [hname, hkey, Fields.get?]
      · simp [hname, hkey, Fields.get?, Ne.symm hkey]
    · by_cases hkey : name = key
      · subst hkey
        simp [hname, Fields.get?]
      · simp [hname, hkey, Fields.get?, ih]

/-! ## Writing what is read -/

namespace Make

variable {type : String} {fields : Fields}

/-- The properties of an element are read as an object, which is empty if there is none. -/
theorem exists_properties (h : Kind.isReadableFrom fields .element = true) :
    ∃ properties, ((fields.get? "properties").getD .null).givenObject = .ok (.obj properties) ∧
      (if (fields.get? "properties").any Value.isNull = true then none
        else fields.get? "properties").or (some (.obj [])) = some (.obj properties) := by
  rw [Kind.isReadableFrom] at h
  cases hproperties : fields.get? "properties" with
  | none => exact ⟨[], rfl, rfl⟩
  | some value =>
    rw [hproperties, Option.all_some] at h
    cases value with
    | null => exact ⟨[], rfl, rfl⟩
    | obj properties => exact ⟨properties, by cases properties <;> rfl, rfl⟩
    | _ => simp [Value.isNull, Value.isObj] at h

/-- The value of a text is read as a text, which is empty if there is none. -/
theorem exists_value (h : Kind.isReadableFrom fields .text = true) :
    ∃ s, (fields.get? "value").getD (.str "") = .str s := by
  rw [Kind.isReadableFrom] at h
  cases hvalue : fields.get? "value" with
  | none => exact ⟨"", rfl⟩
  | some value =>
    rw [hvalue, Option.all_some] at h
    cases value with
    | str s => exact ⟨s, rfl⟩
    | _ => simp [Value.isStr] at h

/-- Fields that can be read state a node once they are completed. -/
theorem exists_headOf (htype : fields.get? "type" = some (.str type))
    (h : fields.isReadable = true) :
    ∃ m : Make, Node.headOf type fields = .ok m.head ∧ m.kind = .ofTypeName type ∧
      (∀ key ∈ m.fields.map Prod.fst,
        (fields.completed m.kind).get? key = m.fields.get? key) ∧
      (m.kind.isContainer = true →
        m.listed = (fields.has "children" || m.kind.defaults.has "children")) := by
  have hkind : fields.kind? = some (.ofTypeName type) := by rw [Fields.kind?, htype]
  rw [Fields.isReadable, hkind, Option.any_some] at h
  cases hk : Kind.ofTypeName type with
  | root =>
    obtain rfl := Kind.eq_of_ofTypeName hk rfl
    refine ⟨.root, by rw [Node.headOf, hk]; rfl, rfl, ?_, ?_⟩
    · simp [Make.fields, Fields.get?_completed, htype, Fields.get?, kind, Kind.nullable]
    · simp [listed, kind, Kind.defaults, Fields.has, Fields.get?]
  | element =>
    obtain rfl := Kind.eq_of_ofTypeName hk rfl
    rw [hk] at h
    obtain ⟨properties, hgiven, hstated⟩ := exists_properties h
    refine ⟨.element ((fields.get? "tagName").getD (.str "")) properties, ?_, rfl, ?_, ?_⟩
    · rw [Node.headOf, hk]
      dsimp only
      rw [hgiven]
      rfl
    · simp [Make.fields, Fields.get?_completed, htype, Fields.get?, kind, Kind.nullable,
        Kind.defaults, hstated]
    · simp [listed, kind, Kind.defaults, Fields.has, Fields.get?]
  | text =>
    obtain rfl := Kind.eq_of_ofTypeName hk rfl
    rw [hk] at h
    obtain ⟨s, hs⟩ := exists_value h
    refine ⟨.text s, by rw [Node.headOf, hk]; dsimp only; rw [hs]; rfl, rfl, ?_, ?_⟩
    · simp [Make.fields, Fields.get?_completed, htype, Fields.get?, kind, Kind.nullable,
        Kind.defaults, hs]
    · simp [kind, Kind.isContainer_eq]
  | comment =>
    obtain rfl := Kind.eq_of_ofTypeName hk rfl
    refine ⟨.comment ((fields.get? "value").getD (.str "")), by rw [Node.headOf, hk]; rfl, rfl, ?_, ?_⟩
    · simp [Make.fields, Fields.get?_completed, htype, Fields.get?, kind, Kind.nullable,
        Kind.defaults]
    · simp [kind, Kind.isContainer_eq]
  | doctype =>
    obtain rfl := Kind.eq_of_ofTypeName hk rfl
    refine ⟨.doctype, by rw [Node.headOf, hk]; rfl, rfl, ?_, ?_⟩
    · simp [Make.fields, Fields.get?_completed, htype, Fields.get?, kind, Kind.nullable]
    · simp [kind, Kind.isContainer_eq]
  | other =>
    refine ⟨.other type (fields.has "children"), by rw [Node.headOf, hk]; rfl, rfl, ?_, ?_⟩
    · simp [Make.fields, Fields.get?_completed, htype, Fields.get?, kind, Kind.nullable]
    · simp [listed, kind, Kind.defaults, Fields.has, Fields.get?]

end Make

namespace Value

/-- What the completed fields of a node give for a key, with the forms of the children completed. -/
theorem completed_obj {fields : Fields} {k : Kind} (hkind : fields.kind? = some k) :
    ∃ others : Fields, (Value.obj fields).completed = .obj (others.completed k) ∧
      ∀ key, others.get? key =
        if key = "children" ∧ k.isContainer = true then (fields.get? "children").map completedBelow
        else fields.get? key := by
  refine ⟨if k.isContainer then completedIn fields else fields, ?_, fun key => ?_⟩
  · rw [completed, hkind]
  · cases k.isContainer with
    | false => simp
    | true => simp [get?_completedIn]

end Value

namespace Node

/-- Trees that are written each as its completed form are written as a list. -/
theorem exists_encodeAll_of_completed {items : List Value} {ns : List Node}
    (h : List.Forall₂ (fun item n => ∃ d, encode n = .ok d ∧ d.Alike item.completed) items ns) :
    ∃ others, encodeAll ns = .ok others ∧
      List.Forall₂ Value.Alike others (Value.completedAmong items) := by
  induction h with
  | nil => exact ⟨[], rfl, .nil⟩
  | cons hfirst _ ih =>
    obtain ⟨d, hencode, halike⟩ := hfirst
    obtain ⟨others, hencodes, hrest⟩ := ih
    refine ⟨d :: others, ?_, .cons halike hrest⟩
    rw [encodeAll, hencode, hencodes]
    rfl

end Node

/-- The children that completed fields list are like those that a node has. -/
theorem Make.rel_children? {m : Make} {fields : Fields} (hkind : fields.kind? = some m.kind)
    (hlists : fields.ListsItems) (hcontainer : m.kind.isContainer = true)
    (hlisted : m.listed = (fields.has "children" || m.kind.defaults.has "children"))
    {others : List Value}
    (halike : List.Forall₂ Value.Alike others (Value.completedAmong fields.items)) :
    Option.Rel Value.Alike (m.children? others)
      (((fields.get? "children").map Value.completedBelow).or
        (m.kind.defaults.get? "children")) := by
  rw [Fields.ListsItems, hkind, Option.any_some] at hlists
  rw [children?, hlisted, Fields.has, Fields.has]
  rcases hlists hcontainer with hnone | hsome
  · obtain rfl : others = [] := by
      rw [Fields.items, hnone, hkind, Option.any_some, hcontainer] at halike
      exact List.forall₂_nil_right_iff.mp halike
    rw [hnone]
    cases m.kind <;> simp [Kind.defaults, Fields.get?, Value.Alike.refl]
  · rw [hsome, Option.isSome_some, Bool.true_or, if_pos rfl, Option.map_some, Option.some_or]
    exact .some (.arr halike)

/-- An encoded form that can be read is written as its completion. -/
theorem Node.exists_decode_of_isReadable {d : Value} (h : d.isReadable = true) :
    ∃ n, decode d = .ok n ∧ ∃ d', encode n = .ok d' ∧ d'.Alike d.completed := by
  refine Value.everyNode_induct
    (motive := fun d => ∃ n, decode d = .ok n ∧ ∃ d', encode n = .ok d' ∧ d'.Alike d.completed)
    (fun fields hfields hlists ih => ?_) d h
  obtain ⟨type, htype⟩ := Fields.exists_type hfields
  obtain ⟨m, hhead, hkind, hown, hlisted⟩ := Make.exists_headOf htype hfields
  obtain ⟨children, hdecodes, hrel⟩ := exists_decodeAll ih
  obtain ⟨others, hencodes, halike⟩ := exists_encodeAll_of_completed hrel
  refine ⟨_, decode_obj htype hhead hlists hdecodes, _, m.encode_node _ hencodes, ?_⟩
  have hfound : fields.kind? = some m.kind := by rw [Fields.kind?, htype, hkind]
  obtain ⟨inner, hcompleted, hinner⟩ := Value.completed_obj hfound
  have hsame {key : String} (hne : ¬ (key = "children" ∧ m.kind.isContainer = true)) :
      inner.get? key = fields.get? key := by rw [hinner, if_neg hne]
  rw [hcompleted, ← hkind, Make.alike_form]
  · refine ⟨fun key hkey => ?_, fun hcontainer => ?_, ?_⟩
    · have hne : ¬ (key = "children" ∧ m.kind.isContainer = true) := fun hchildren =>
        hkey ((m.mem_knownFields key).mpr (.inr (.inl hchildren.symm)))
      rw [Fields.get?_completed_of_not_mem hkey, hsame hne, Fields.get?_without, if_neg hkey]
      exact Value.Alike.rel_refl _
    · rw [Fields.get?_completed_children, hinner, if_pos ⟨rfl, hcontainer⟩]
      exact Make.rel_children? hfound hlists hcontainer (hlisted hcontainer) halike
    · rw [Fields.get?_completed_data inner (fields.without m.kind.knownFields), hsame (by simp)]
      exact Value.Alike.rel_refl _
  · intro key hkey
    have hne : key ≠ "children" := by
      rintro rfl
      exact Fields.get?_eq_none.mp m.get?_fields_children hkey
    rw [Fields.get?_completed, hsame fun hchildren => hne hchildren.1, ← Fields.get?_completed,
      hown key hkey]
  · intro key hkey
    rw [Fields.get?_without, if_pos hkey]

/-! ## Main result -/

namespace Node

/-- The encoded form is faithful. A tree of nodes as the constructors make them is read back from its
encoded form as it was, and an encoded form that can be read is written again as its completion, up to
the order of fields. -/
theorem encoding_faithful :
    (∀ n : Node, n.Built → ∃ d, encode n = .ok d ∧ decode d = .ok n) ∧
      ∀ d : Value, d.isReadable = true →
        ∃ n, decode d = .ok n ∧ ∃ d', encode n = .ok d' ∧ d'.Alike d.completed :=
  ⟨fun _ h => exists_encode_of_built h, fun _ h => exists_decode_of_isReadable h⟩

/-- A document with data, whose nodes carry fields that other kinds of nodes would read. -/
def carriedTree : Node :=
  .node Make.root.head ⟨.int 1, [("value", .str "v")]⟩
    [.node (Make.text "t").head ⟨.null, [("children", .int 2), ("tagName", .str "p")]⟩ [],
      .node (Make.other "raw" false).head {} [], .node (Make.other "raw" true).head {} []]

/-- The form of an element that states no properties and no data, with a text without a value and a node
of another type in it. -/
def sparseForm : Value :=
  .obj [("type", .str "element"), ("data", .null), ("properties", .null),
    ("children", .arr [.obj [("type", .str "text"), ("children", .int 2)],
      .obj [("type", .str "raw"), ("value", .null)]])]

/-- Fields of other kinds are kept, and an empty list of children is told from a missing one. -/
theorem encoding_faithful_carriedTree :
    carriedTree.Built ∧ sparseForm.isReadable = true ∧
      (∃ d, encode carriedTree = .ok d ∧ decode d = .ok carriedTree) ∧
      ∃ n, decode sparseForm = .ok n ∧ ∃ d', encode n = .ok d' ∧ d'.Alike sparseForm.completed := by
  have hleaf (m : Make) (hkind : Kind.ofTypeName m.type = m.kind) (info : Info)
      (hextra : ∀ key ∈ m.kind.knownFields, info.extra.get? key = none) :
      (Node.node m.head info []).Built := .made hkind hextra (fun _ => rfl) (by simp)
  have hbuilt : carriedTree.Built := by
    refine .made (m := .root) rfl ?_ (by simp [Make.listed]) ?_
    · simp [Make.kind, Kind.knownFields, Fields.get?]
    · simp only [List.forall_mem_cons]
      refine ⟨hleaf (.text "t") rfl _ ?_, hleaf (.other "raw" false) rfl _ ?_,
        hleaf (.other "raw" true) rfl _ ?_, by simp⟩
      all_goals simp [Make.kind, Kind.knownFields, Fields.get?]
  have hreadable : sparseForm.isReadable = true := by decide
  exact ⟨hbuilt, hreadable, encoding_faithful.1 carriedTree hbuilt,
    encoding_faithful.2 sparseForm hreadable⟩

example : sparseForm.completed =
    .obj [("type", .str "element"),
      ("children", .arr [.obj [("type", .str "text"), ("children", .int 2), ("value", .str "")],
        .obj [("type", .str "raw"), ("value", .null)]]),
      ("tagName", .str ""), ("properties", .obj [])] := rfl

end Node

end Transclude
