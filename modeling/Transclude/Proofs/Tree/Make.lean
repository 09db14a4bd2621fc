import Transclude.Tree.Codec
import Transclude.Proofs.Tree.Regular
import Transclude.Proofs.Value.Alike

/-!
# Forms of nodes

A node is written as the fields that state what it is, its children and its data, over the extra fields.
`Make` says what a constructor can be given for a node, `Make.form` what is written for the node that is
made, and `Make.alike_form` what has to be compared to see that fields have nothing else in them.
-/

namespace Transclude

/-! ## Kinds -/

namespace Kind

/-- The kinds whose nodes may have children, one by one. -/
theorem isContainer_eq (k : Kind) :
    k.isContainer = decide (k = .root ∨ k = .element ∨ k = .other) := by
  cases k <;> decide

/-- The kinds whose nodes have a value, one by one. -/
theorem within_valued (k : Kind) :
    (Kinds.single k).within .valued = decide (k = .text ∨ k = .comment) := by
  cases k <;> decide

end Kind

/-! ## Fields -/

/-- The field `key`, if it has a value. -/
def Fields.single (key : String) : Option Value → Fields
  | none => []
  | some value => [(key, value)]

/-- A single field has a value for its key only. -/
theorem Fields.get?_single (key other : String) (value : Option Value) :
    (single key value).get? other = if key = other then value else none := by
  cases value with
  | none => simp [single, get?]
  | some value => simp [single, get?]

/-- The data that a node carries, if any. -/
def Info.data? (info : Info) : Option Value :=
  match info.data with
  | .null => none
  | data => some data

/-- Data are set as a single field. -/
theorem Node.setData_obj (info : Info) (fields : Fields) :
    setData info.data (.obj fields) = .obj (fields.setAll (.single "data" info.data?)) := by
  unfold Info.data?
  cases info.data <;> rfl

/-! ## What nodes are made of -/

/-- What a constructor is given for a node. The tag of an element and the value of a comment need not be
texts. -/
inductive Make where
  /-- The top of a tree. -/
  | root
  /-- An element. -/
  | element (tag : Value) (properties : Fields)
  /-- A text. -/
  | text (value : String)
  /-- A comment. -/
  | comment (value : Value)
  /-- A document type declaration. -/
  | doctype
  /-- A node of another type, with a list of children or without one. -/
  | other (type : String) (listed : Bool)

namespace Make

/-- The kind of the node. -/
def kind : Make → Kind
  | .root => .root
  | .element _ _ => .element
  | .text _ => .text
  | .comment _ => .comment
  | .doctype => .doctype
  | .other _ _ => .other

/-- All that can be said about what the node is. -/
def traits : Make → Traits
  | .root => { kinds := .single .root }
  | .element tag properties =>
    { kinds := .single .element, tag := tag, properties := .obj properties }
  | .text value => { kinds := .single .text, value := .str value }
  | .comment value => { kinds := .single .comment, value := value }
  | .doctype => { kinds := .single .doctype }
  | .other type listed => { kinds := .single .other, typed := some (type, listed) }

/-- The head of the node. -/
def head (m : Make) : Head := m.traits.head

/-- The fields that state what the node is. -/
def fields : Make → Fields
  | .root => [("type", .str "root")]
  | .element tag properties =>
    [("type", .str "element"), ("tagName", tag), ("properties", .obj properties)]
  | .text value => [("type", .str "text"), ("value", .str value)]
  | .comment value => [("type", .str "comment"), ("value", value)]
  | .doctype => [("type", .str "doctype")]
  | .other type _ => [("type", .str type)]

/-- Whether the node has a list of children. -/
def listed : Make → Bool
  | .root | .element _ _ => true
  | .text _ | .comment _ | .doctype => false
  | .other _ listed => listed

/-- The list of children that the node states. -/
def children? (m : Make) (items : List Value) : Option Value :=
  if m.listed then some (.arr items) else none

/-- The fields of the form of the node: its own, its children and its data over the extra ones. -/
def form (m : Make) (info : Info) (items : List Value) : Fields :=
  info.extra.setAll
    (m.fields ++ (Fields.single "children" (m.children? items) ++ Fields.single "data" info.data?))

/-- Only a node of a kind that may have children has a list of them. -/
theorem isContainer_of_listed {m : Make} (h : m.listed = true) : m.kind.isContainer = true := by
  cases m <;> simp_all [listed, kind, Kind.isContainer_eq]

/-- The fields that mean something for a kind are the node's own, the children and the data. -/
theorem mem_knownFields (m : Make) (key : String) :
    key ∈ m.kind.knownFields ↔ key ∈ m.fields.map Prod.fst ∨
      (m.kind.isContainer = true ∧ key = "children") ∨ key = "data" := by
  cases m <;> simp [kind, Kind.isContainer_eq, Kind.knownFields, fields, or_assoc]

/-- No field of a node's own is stated twice, and none is the children or the data. -/
theorem nodup_keys_fields (m : Make) :
    (m.fields.map Prod.fst ++ ["children", "data"]).Nodup := by
  cases m <;> simp [fields]

/-- No field is set twice in the form of a node. -/
theorem nodup_keys_form (m : Make) (info : Info) (items : List Value) :
    ((m.fields ++ (Fields.single "children" (m.children? items) ++
      Fields.single "data" info.data?)).map Prod.fst).Nodup := by
  refine (nodup_keys_fields m).sublist ?_
  rw [List.map_append, List.map_append]
  refine (List.Sublist.refl _).append ?_
  cases m.children? items <;> cases info.data? <;> simp [Fields.single]

/-- The children are no field of a node's own. -/
theorem get?_fields_children (m : Make) : m.fields.get? "children" = none := by
  have h := (List.nodup_append.mp (nodup_keys_fields m)).2.2
  exact Fields.get?_eq_none.mpr fun hmem => h _ hmem "children" (by simp) rfl

/-- The data are no field of a node's own. -/
theorem get?_fields_data (m : Make) : m.fields.get? "data" = none := by
  have h := (List.nodup_append.mp (nodup_keys_fields m)).2.2
  exact Fields.get?_eq_none.mpr fun hmem => h _ hmem "data" (by simp) rfl

/-! ## Writing -/

/-- What the form of a node gives for a key. -/
theorem get?_form (m : Make) (info : Info) (items : List Value) (key : String) :
    (m.form info items).get? key =
      ((m.fields.get? key).or
        ((if "children" = key then m.children? items else none).or
          (if "data" = key then info.data? else none))).or (info.extra.get? key) := by
  unfold form
  rw [Fields.get?_setAll key (nodup_keys_form m info items), Fields.get?_append,
    Fields.get?_append, Fields.get?_single, Fields.get?_single]

/-- The form of a node gives the node's own fields. -/
theorem get?_form_own (m : Make) (info : Info) (items : List Value) {key : String}
    (h : key ∈ m.fields.map Prod.fst) :
    (m.form info items).get? key = m.fields.get? key := by
  have hne : m.fields.get? key ≠ none := fun hnone => Fields.get?_eq_none.mp hnone h
  obtain ⟨value, hvalue⟩ := Option.ne_none_iff_exists'.mp hne
  rw [get?_form, hvalue]
  rfl

/-- The form of a node gives its children. -/
theorem get?_form_children (m : Make) {info : Info} (items : List Value)
    (h : info.extra.get? "children" = none) :
    (m.form info items).get? "children" = m.children? items := by
  rw [get?_form, get?_fields_children, h, if_pos rfl, if_neg (by simp)]
  simp

/-- The form of a node gives its data. -/
theorem get?_form_data (m : Make) {info : Info} (items : List Value)
    (h : info.extra.get? "data" = none) : (m.form info items).get? "data" = info.data? := by
  rw [get?_form, get?_fields_data, h, if_neg (by simp), if_pos rfl]
  simp

/-- The form of a node gives for all other keys what the extra fields give. -/
theorem get?_form_extra (m : Make) (info : Info) (items : List Value) {key : String}
    (h : key ∉ m.kind.knownFields) :
    (m.form info items).get? key = info.extra.get? key := by
  rw [mem_knownFields, not_or, not_or] at h
  obtain ⟨hown, hchildren, hdata⟩ := h
  have hnone : (if "children" = key then m.children? items else none) = none := by
    split
    · next hkey =>
      have hunlisted : ¬ m.listed = true := fun hlisted =>
        hchildren ⟨isContainer_of_listed hlisted, hkey.symm⟩
      rw [children?, if_neg hunlisted]
    · rfl
  rw [get?_form, Fields.get?_eq_none.mpr hown, hnone, if_neg (Ne.symm hdata)]
  simp

/-- The form of a node is like fields that state what it is if the extra fields, the children and the
data are like theirs. -/
theorem alike_form {m : Make} {fields : Fields}
    (hown : ∀ key ∈ m.fields.map Prod.fst, fields.get? key = m.fields.get? key) {info : Info}
    (hextra : ∀ key ∈ m.kind.knownFields, info.extra.get? key = none) (items : List Value) :
    Value.Alike (.obj (m.form info items)) (.obj fields) ↔
      (∀ key ∉ m.kind.knownFields,
        Option.Rel Value.Alike (info.extra.get? key) (fields.get? key)) ∧
      (m.kind.isContainer = true →
        Option.Rel Value.Alike (m.children? items) (fields.get? "children")) ∧
      Option.Rel Value.Alike info.data? (fields.get? "data") := by
  have hchildren : m.kind.isContainer = true →
      (m.form info items).get? "children" = m.children? items := fun hcontainer =>
    get?_form_children m items
      (hextra _ ((mem_knownFields m _).mpr (.inr (.inl ⟨hcontainer, rfl⟩))))
  have hdata : (m.form info items).get? "data" = info.data? :=
    get?_form_data m items (hextra _ ((mem_knownFields m _).mpr (.inr (.inr rfl))))
  rw [Value.alike_obj]
  constructor
  · intro halike
    refine ⟨fun key hkey => ?_, fun hcontainer => ?_, ?_⟩
    · rw [← get?_form_extra m info items hkey]
      exact halike key
    · rw [← hchildren hcontainer]
      exact halike "children"
    · rw [← hdata]
      exact halike "data"
  · rintro ⟨hothers, hlist, hrest⟩ key
    -- The key is one of the extra fields, or the node's own, the children's or the data's.
    by_cases hkey : key ∈ m.kind.knownFields
    · rcases (mem_knownFields m key).mp hkey with hmem | ⟨hcontainer, rfl⟩ | rfl
      · rw [get?_form_own m info items hmem, hown key hmem]
        exact Value.Alike.rel_refl _
      · rw [hchildren hcontainer]
        exact hlist hcontainer
      · rw [hdata]
        exact hrest
    · rw [get?_form_extra m info items hkey]
      exact hothers key hkey

/-! ## Writing -/

/-- The part of a form that states what the node is is written first. -/
theorem headForm_head (m : Make) (extra : Fields) :
    Node.headForm m.head extra = .ok (.obj (extra.setAll m.fields)) := by
  have htraits : m.head.traits = m.traits := Traits.traits_head _
  cases m with
  | _ =>
    simp [Node.headForm, Head.isKind, Head.kinds, Head.typeName?, Head.value, Head.tag,
      Head.properties, htraits, traits, Kind.within_valued, Kinds.single_beq_single,
      Kind.typeName?, Kinds.single?_single, fields, Fields.setAll, Value.toObject, bind,
      Except.bind, pure, Except.pure]

/-- The head of a node says whether the node has a list of children. -/
theorem listed_head (m : Make) : m.head.listed = m.listed := by
  have htraits : m.head.traits = m.traits := Traits.traits_head _
  rw [Head.listed, Head.isContainer, Head.kinds, htraits]
  cases m with
  | other type listed => rfl
  | _ => exact Kind.isContainer_eq _

/-- A node is written as its form. -/
theorem encode_node (m : Make) (info : Info) {children : List Node} {items : List Value}
    (h : Node.encodeAll children = .ok items) :
    Node.encode (.node m.head info children) = .ok (.obj (m.form info items)) := by
  have hbare : m.head.isBare = false := by
    rw [Head.isBare, head, Traits.traits_head]
    cases m <;> rfl
  unfold form
  rw [Node.encode, headForm_head, hbare, h, listed_head, Fields.setAll_append, Fields.setAll_append,
    ← Node.setData_obj, children?]
  cases m.listed <;> rfl

end Make

end Transclude
