import Transclude.Proofs.Tree.Make

/-!
# Complete encoded forms

A value is the complete form of a tree if each node in it has the fields that its kind calls for.
Such a value can be read (`exists_decode`), and `Value.Encodes` relates it to the tree that is read
from it. A node is written as its own fields, its children and its data over the extra fields
(`encode_of_isRegular`).
-/

namespace Transclude

/-! ## Complete fields -/

namespace Value

/-- Whether a value is an object with texts as keys. -/
def isObj : Value → Bool
  | .obj _ => true
  | _ => false

/-- A value that is there and a text is given by a text. -/
theorem any_isStr {v : Option Value} : v.any isStr = true ↔ ∃ s, v = some (.str s) := by
  rcases v with _ | v
  · simp
  · cases v <;> simp [isStr]

/-- A value that is there and an object is given by fields. -/
theorem any_isObj {v : Option Value} : v.any isObj = true ↔ ∃ fields, v = some (.obj fields) := by
  rcases v with _ | v
  · simp
  · cases v <;> simp [isObj]

end Value

/-- Whether a node of a kind has by its fields what the kind calls for. -/
def Kind.isMetBy (fields : Fields) : Kind → Bool
  | .root => fields.has "children"
  | .element =>
    (fields.get? "tagName").any Value.isStr && (fields.get? "properties").any Value.isObj &&
      fields.has "children"
  | .text | .comment => (fields.get? "value").any Value.isStr
  | .doctype | .other => true

namespace Fields

/-- The kind that fields mean by the type that they state. -/
def kind? (fields : Fields) : Option Kind :=
  match fields.get? "type" with
  | some (.str type) => some (.ofTypeName type)
  | _ => none

/-- Fields that mean a kind state a type. -/
theorem exists_type {fields : Fields} {p : Kind → Bool} (h : fields.kind?.any p = true) :
    ∃ type, fields.get? "type" = some (.str type) := by
  unfold kind? at h
  split at h
  · next type htype => exact ⟨type, htype⟩
  · simp at h

/-- The encoded forms of the children that fields list, if their kind may have children. -/
def items (fields : Fields) : List Value :=
  match fields.kind?.any Kind.isContainer, fields.get? "children" with
  | true, some (.arr items) => items
  | _, _ => []

/-- The children of a kind that may have some are listed or not there. -/
def ListsItems (fields : Fields) : Prop :=
  fields.kind?.any Kind.isContainer = true →
    fields.get? "children" = none ∨ fields.get? "children" = some (.arr fields.items)

/-- Whether the fields of a node are all there that its kind calls for. -/
def isComplete (fields : Fields) : Bool := fields.kind?.any (Kind.isMetBy fields)

/-- Whether the data that fields state, if they do, are present. -/
def keepsData (fields : Fields) : Bool :=
  match fields.get? "data" with
  | some .null => false
  | _ => true

end Fields

mutual

/-- Whether the fields of every node of an encoded tree pass a test. -/
def Value.everyNode (p : Fields → Bool) : Value → Bool
  | .obj fields =>
    p fields && (!(Fields.kind? fields).any Kind.isContainer || Value.everyNodeIn p fields)
  | _ => false

/-- Whether every node passes a test among the children that the fields of a node list, if they
do. -/
def Value.everyNodeIn (p : Fields → Bool) : List (String × Value) → Bool
  | [] => true
  | (name, value) :: rest =>
    if name = "children" then Value.everyNodeBelow p value else Value.everyNodeIn p rest

/-- Whether a value is a list of encoded trees of which every node passes a test. -/
def Value.everyNodeBelow (p : Fields → Bool) : Value → Bool
  | .arr items => Value.everyNodeAmong p items
  | _ => false

/-- Whether every node of a list of encoded trees passes a test. -/
def Value.everyNodeAmong (p : Fields → Bool) : List Value → Bool
  | [] => true
  | item :: rest => Value.everyNode p item && Value.everyNodeAmong p rest

end

namespace Value

/-- The children that fields list are tested by the field that lists them. -/
theorem everyNodeIn_eq (p : Fields → Bool) (fields : Fields) :
    everyNodeIn p fields = (fields.get? "children").all (everyNodeBelow p) := by
  induction fields with
  | nil => rw [everyNodeIn, Fields.get?_nil, Option.all_none]
  | cons field rest ih =>
    obtain ⟨name, value⟩ := field
    rw [everyNodeIn, Fields.get?]
    split
    · rfl
    · exact ih

/-- A list is tested item by item. -/
theorem everyNodeAmong_iff {p : Fields → Bool} {items : List Value} :
    everyNodeAmong p items = true ↔ ∀ item ∈ items, item.everyNode p = true := by
  induction items with
  | nil => simp [everyNodeAmong]
  | cons item rest ih => rw [everyNodeAmong, Bool.and_eq_true, ih, List.forall_mem_cons]

/-- A node is tested by its own fields and by the children that they list. -/
theorem everyNode_obj {p : Fields → Bool} {fields : Fields} :
    (Value.obj fields).everyNode p = true ↔
      p fields = true ∧ fields.ListsItems ∧ ∀ item ∈ fields.items, item.everyNode p = true := by
  rw [everyNode, everyNodeIn_eq, Bool.and_eq_true, ← everyNodeAmong_iff, Fields.ListsItems,
    Fields.items]
  cases fields.kind?.any Kind.isContainer with
  | false => simp [everyNodeAmong]
  | true =>
    cases fields.get? "children" with
    | none => simp [everyNodeAmong]
    | some v => cases v <;> simp [everyNodeBelow, everyNodeAmong]

/-- The forms of the children are smaller than that of the node. -/
theorem sizeOf_lt_of_mem_items {fields : Fields} {item : Value} (h : item ∈ fields.items) :
    sizeOf item < sizeOf (Value.obj fields) := by
  have hget {key : String} {v : Value} {fields : Fields} (h : fields.get? key = some v) :
      sizeOf v < sizeOf fields := by
    induction fields with
    | nil => simp [Fields.get?] at h
    | cons field rest ih =>
      obtain ⟨name, value⟩ := field
      rw [Fields.get?] at h
      split at h
      · obtain rfl := Option.some.inj h
        simp only [List.cons.sizeOf_spec, Prod.mk.sizeOf_spec]
        omega
      · have hrest := ih h
        simp only [List.cons.sizeOf_spec]
        omega
  unfold Fields.items at h
  split at h
  · next items _ hitems =>
    have hlist := hget hitems
    have hitem := List.sizeOf_lt_of_mem h
    simp only [Value.arr.sizeOf_spec, Value.obj.sizeOf_spec] at hlist ⊢
    omega
  · simp at h

/-- What holds of a node if it holds of its children holds of every encoded tree. -/
theorem everyNode_induct {p : Fields → Bool} {motive : Value → Prop}
    (node : ∀ fields : Fields, p fields = true → fields.ListsItems →
      (∀ item ∈ fields.items, motive item) → motive (.obj fields)) :
    ∀ d : Value, d.everyNode p = true → motive d
  | .obj fields, h => by
    obtain ⟨hfields, hlists, hitems⟩ := everyNode_obj.mp h
    refine node fields hfields hlists fun item hitem => ?_
    exact everyNode_induct node item (hitems item hitem)
  termination_by d => sizeOf d
  decreasing_by exact sizeOf_lt_of_mem_items hitem

/-- Whether a value is the complete form of a tree. -/
def isComplete (d : Value) : Bool := d.everyNode Fields.isComplete

/-- Whether no node of an encoded tree states that its data are absent. -/
def keepsData (d : Value) : Bool := d.everyNode Fields.keepsData

end Value

/-! ## Fields of a head -/

namespace Head

/-- The fields that state what a node is. -/
def fields : Head → Fields
  | .root => [("type", .str "root")]
  | .element tag properties =>
    [("type", .str "element"), ("tagName", .str tag), ("properties", .obj properties)]
  | .text value => [("type", .str "text"), ("value", .str value)]
  | .comment value => [("type", .str "comment"), ("value", .str value)]
  | .doctype => [("type", .str "doctype")]
  | .other type _ => [("type", .str type)]
  | .irregular _ => []

/-- Some fields state what a node is, and whether it has a list of children. -/
structure StatedBy (head : Head) (fields : Fields) : Prop where
  /-- The head fits together. -/
  regular : head.isRegular = true
  /-- The type that is stated means the head's kind. -/
  kind : fields.kind? = some head.kind
  /-- The head's own fields are there. -/
  own : ∀ key ∈ head.fields.map Prod.fst, fields.get? key = head.fields.get? key
  /-- There are children if the node has a list of them. -/
  listed : head.kind.isContainer = true → head.listed = fields.has "children"

/-- The list of children that a node states. -/
def children? (head : Head) (items : List Value) : Option Value :=
  if head.listed then some (.arr items) else none

/-- Some fields state what a node is, and list its children if it has a list of them. -/
structure Lists (head : Head) (fields : Fields) (items : List Value) : Prop where
  /-- The fields state the head. -/
  stated : head.StatedBy fields
  /-- The children are listed if the node has a list of them. -/
  children : head.kind.isContainer = true → fields.get? "children" = head.children? items
  /-- There are none if it has no list. -/
  unlisted : head.listed = false → items = []

variable {head : Head}

/-- Only a node of a kind that may have children has a list of them. -/
theorem isContainer_of_listed (hr : head.isRegular = true) (h : head.listed = true) :
    head.kind.isContainer = true := by
  cases head with
  | irregular traits => simp [isRegular] at hr
  | other type listed => exact Kind.isContainer_eq .other
  | _ => exact h

end Head

/-! ## Writing -/

namespace Head

/-- The fields of the form of a node: its own, its children and its data over the extra ones. -/
def form (head : Head) (info : Info) (items : List Value) : Fields :=
  info.extra.setAll
    (head.fields ++
      (Fields.single "children" (head.children? items) ++ Fields.single "data" info.data?))

variable {head : Head}

/-- A head that fits together is that of a node that can be made. -/
theorem exists_make (hr : head.isRegular = true) :
    ∃ m : Make, m.head = head ∧ m.kind = head.kind ∧ m.fields = head.fields := by
  cases head with
  | root => exact ⟨.root, head_traits hr, rfl, rfl⟩
  | element tag properties => exact ⟨.element (.str tag) properties, head_traits hr, rfl, rfl⟩
  | text value => exact ⟨.text value, head_traits hr, rfl, rfl⟩
  | comment value => exact ⟨.comment (.str value), head_traits hr, rfl, rfl⟩
  | doctype => exact ⟨.doctype, head_traits hr, rfl, rfl⟩
  | other type listed => exact ⟨.other type listed, head_traits hr, rfl, rfl⟩
  | irregular traits => simp [isRegular] at hr

/-- The form of a node is that of the node that is made with its head. -/
theorem form_eq {m : Make} (hhead : m.head = head) (hfields : m.fields = head.fields) (info : Info)
    (items : List Value) :
    head.children? items = m.children? items ∧ head.form info items = m.form info items := by
  have hchildren : head.children? items = m.children? items := by
    rw [children?, ← hhead, Make.listed_head, Make.children?]
  exact ⟨hchildren, by rw [form, hchildren, ← hfields, Make.form]⟩

end Head

/-- A node whose head fits together is written as its form. -/
theorem Node.encode_of_isRegular {head : Head} (hr : head.isRegular = true) (info : Info)
    {children : List Node} {items : List Value} (h : encodeAll children = .ok items) :
    encode (.node head info children) = .ok (.obj (head.form info items)) := by
  obtain ⟨m, hhead, -, hfields⟩ := Head.exists_make hr
  rw [(Head.form_eq hhead hfields info items).2, ← hhead]
  exact m.encode_node info h

/-! ## Reading -/

/-- A value is the complete form of a tree: the fields of each node state its head and list its
children, and what is left of them is what the node carries. -/
inductive Value.Encodes : Value → Node → Prop where
  /-- A node is encoded by fields with its head and the forms of its children. -/
  | node {fields : Fields} {items : List Value} {head : Head} {children : List Node}
      (h : head.Lists fields items) (hchildren : List.Forall₂ Value.Encodes items children) :
    Value.Encodes (.obj fields) (.node head
      ⟨(fields.get? "data").getD .null, fields.without head.kind.knownFields⟩ children)

namespace Kind

/-- A type that means a kind with a type of its own is that type. -/
theorem eq_of_ofTypeName {type name : String} {k : Kind} (h : ofTypeName type = k)
    (hname : k.typeName? = some name) : type = name := by
  subst h
  unfold ofTypeName at hname
  cases hfind : all.find? fun k => k.typeName? = some type with
  | none =>
    rw [hfind] at hname
    simp [typeName?] at hname
  | some k =>
    have htype : k.typeName? = some type := by simpa using List.find?_some hfind
    rw [hfind, Option.getD_some, htype] at hname
    exact Option.some.inj hname

end Kind

namespace Node

variable {type : String} {fields : Fields}

/-- An element that is met by fields is read from them. -/
theorem exists_headOf_element (htype : fields.get? "type" = some (.str type))
    (hk : Kind.ofTypeName type = .element) (h : Kind.isMetBy fields .element = true) :
    ∃ head, headOf type fields = .ok head ∧ head.kind = .element ∧ head.StatedBy fields := by
  have hkind : fields.kind? = some .element := by simp [Fields.kind?, htype, hk]
  obtain rfl := Kind.eq_of_ofTypeName hk rfl
  simp only [Kind.isMetBy, Bool.and_eq_true, Value.any_isStr, Value.any_isObj] at h
  obtain ⟨⟨⟨tag, htag⟩, properties, hproperties⟩, hchildren⟩ := h
  have hgiven : (Value.obj properties).givenObject = .ok (.obj properties) := by
    cases properties <;> rfl
  have hlisted : (Head.element tag properties).listed = true := Kind.isContainer_eq .element
  refine ⟨.element tag properties, ?_, rfl, rfl, hkind, ?_, fun _ => hlisted.trans hchildren.symm⟩
  · rw [headOf, hk, htag, hproperties, Option.getD_some, Option.getD_some, hgiven]
    exact congrArg Except.ok (Head.head_traits (h := .element tag properties) rfl)
  · simp [Head.fields, htype, htag, hproperties, Fields.get?]

/-- Complete fields state the head that is read from them. -/
theorem exists_headOf (htype : fields.get? "type" = some (.str type))
    (h : fields.isComplete = true) :
    ∃ head, headOf type fields = .ok head ∧ head.kind = .ofTypeName type ∧
      head.StatedBy fields := by
  have hkind : fields.kind? = some (.ofTypeName type) := by rw [Fields.kind?, htype]
  rw [Fields.isComplete, hkind, Option.any_some] at h
  cases hk : Kind.ofTypeName type with
  | root =>
    rw [hk] at h hkind
    obtain rfl := Kind.eq_of_ofTypeName hk rfl
    refine ⟨.root, by rw [headOf, hk], rfl, rfl, hkind, ?_, fun _ => h.symm⟩
    simp [Head.fields, htype, Fields.get?]
  | element =>
    rw [hk] at h
    exact exists_headOf_element htype hk h
  | text =>
    rw [hk] at h hkind
    obtain rfl := Kind.eq_of_ofTypeName hk rfl
    obtain ⟨s, hs⟩ := Value.any_isStr.mp h
    have hnone : ¬ Kind.isContainer .text = true := by decide
    refine ⟨.text s, ?_, rfl, rfl, hkind, ?_, fun hc => absurd hc hnone⟩
    · rw [headOf, hk, hs, Option.getD_some]
    · simp [Head.fields, htype, hs, Fields.get?]
  | comment =>
    rw [hk] at h hkind
    obtain rfl := Kind.eq_of_ofTypeName hk rfl
    obtain ⟨s, hs⟩ := Value.any_isStr.mp h
    have hnone : ¬ Kind.isContainer .comment = true := by decide
    refine ⟨.comment s, ?_, rfl, rfl, hkind, ?_, fun hc => absurd hc hnone⟩
    · rw [headOf, hk, hs, Option.getD_some]
      exact congrArg Except.ok (Head.head_traits (h := .comment s) rfl)
    · simp [Head.fields, htype, hs, Fields.get?]
  | doctype =>
    rw [hk] at hkind
    obtain rfl := Kind.eq_of_ofTypeName hk rfl
    have hnone : ¬ Kind.isContainer .doctype = true := by decide
    refine ⟨.doctype, ?_, rfl, rfl, hkind, ?_, fun hc => absurd hc hnone⟩
    · rw [headOf, hk]
    · simp [Head.fields, htype, Fields.get?]
  | other =>
    rw [hk] at hkind
    refine ⟨.other type (fields.has "children"), by rw [headOf, hk], rfl, rfl, hkind, ?_, ?_⟩
    · simp [Head.fields, htype, Fields.get?]
    · exact fun _ => rfl

end Node

namespace Node

/-- The children that fields list are read from the field that lists them. -/
theorem childrenIn_eq (fields : Fields) :
    childrenIn fields = match fields.get? "children" with
      | some value => ofChildren value
      | none => .ok [] := by
  induction fields with
  | nil => rfl
  | cons field rest ih =>
    obtain ⟨name, value⟩ := field
    rw [childrenIn, Fields.get?]
    split
    · rfl
    · exact ih

/-- A node is read from its fields and from the forms of its children. -/
theorem decode_obj {head : Head} (htype : fields.get? "type" = some (.str type))
    (hhead : headOf type fields = .ok head) (hlists : fields.ListsItems) {children : List Node}
    (hitems : decodeAll fields.items = .ok children) :
    decode (.obj fields) = .ok (.node head
      ⟨(fields.get? "data").getD .null, fields.without (Kind.ofTypeName type).knownFields⟩
      children) := by
  have hkind : fields.kind? = some (.ofTypeName type) := by rw [Fields.kind?, htype]
  -- What is left to read are the children, if the kind has any.
  have hread : decode (.obj fields) = do
      let children ← if (Kind.ofTypeName type).isContainer then childrenIn fields else .ok []
      return .node head ⟨(fields.get? "data").getD .null,
        fields.without (Kind.ofTypeName type).knownFields⟩ children := by
    rw [decode, htype]
    dsimp only
    rw [hhead]
    rfl
  rw [Fields.ListsItems, hkind, Option.any_some] at hlists
  rw [Fields.items, hkind, Option.any_some] at hitems
  cases hcontainer : (Kind.ofTypeName type).isContainer with
  | false =>
    rw [hcontainer] at hread hitems
    obtain rfl : [] = children := Except.ok.inj hitems
    exact hread
  | true =>
    rw [hcontainer] at hread hitems
    rw [if_pos rfl, childrenIn_eq] at hread
    rcases hlists hcontainer with hnone | hsome
    · rw [hnone] at hread hitems
      obtain rfl : [] = children := Except.ok.inj hitems
      exact hread
    · rw [Fields.items, hkind, Option.any_some, hcontainer] at hsome
      rw [hsome] at hread
      dsimp only at hread
      rw [ofChildren, hitems] at hread
      exact hread

/-- Forms that can be read each by itself can be read as a list. -/
theorem exists_decodeAll {R : Value → Node → Prop} {items : List Value}
    (h : ∀ item ∈ items, ∃ n, decode item = .ok n ∧ R item n) :
    ∃ ns, decodeAll items = .ok ns ∧ List.Forall₂ R items ns := by
  induction items with
  | nil => exact ⟨[], rfl, .nil⟩
  | cons item rest ih =>
    rw [List.forall_mem_cons] at h
    obtain ⟨n, hn, hfirst⟩ := h.1
    obtain ⟨ns, hns, hrest⟩ := ih h.2
    refine ⟨n :: ns, ?_, .cons hfirst hrest⟩
    rw [decodeAll, hn, hns]
    rfl

/-- A complete form can be read. -/
theorem exists_decode {d : Value} (h : d.isComplete = true) : ∃ n, decode d = .ok n ∧ d.Encodes n := by
  refine Value.everyNode_induct (motive := fun d => ∃ n, decode d = .ok n ∧ d.Encodes n)
    (fun fields hfields hlists ih => ?_) d h
  obtain ⟨type, htype⟩ := Fields.exists_type hfields
  obtain ⟨head, hhead, hkind, hstated⟩ := exists_headOf htype hfields
  obtain ⟨children, hrun, hencodes⟩ := exists_decodeAll ih
  refine ⟨_, decode_obj htype hhead hlists hrun, ?_⟩
  rw [← hkind]
  rw [Fields.ListsItems, hstated.kind, Option.any_some] at hlists
  refine .node ⟨hstated, fun hcontainer => ?_, fun hunlisted => ?_⟩ hencodes
  · rw [Head.children?, hstated.listed hcontainer, Fields.has]
    rcases hlists hcontainer with hnone | hsome
    · simp [hnone]
    · simp [hsome]
  · unfold Fields.items
    rw [hstated.kind, Option.any_some]
    cases hcontainer : head.kind.isContainer with
    | false => rfl
    | true =>
      -- Children that are not listed are not there.
      rw [hstated.listed hcontainer, Fields.has, Option.isSome_eq_false_iff,
        Option.isNone_iff_eq_none] at hunlisted
      rw [hunlisted]

mutual

/-- What is read from a complete form is well formed. -/
theorem wellFormed_of_encodes : ∀ {n : Node} {d : Value}, d.Encodes n → n.wellFormed = true
  | .node head _ children, .obj fields, .node h hchildren => by
    refine wellFormed_node.mpr ⟨h.stated.regular, ?_, allWellFormed_of_encodes hchildren⟩
    cases hlisted : head.listed with
    | true => exact .inl rfl
    | false =>
      obtain rfl := h.unlisted hlisted
      cases hchildren
      exact .inr rfl

/-- What is read from complete forms is well formed. -/
theorem allWellFormed_of_encodes : ∀ {ns : List Node} {items : List Value},
    List.Forall₂ Value.Encodes items ns → allWellFormed ns = true
  | [], [], .nil => by rw [allWellFormed]
  | n :: ns, item :: items, .cons h hs => by
    rw [allWellFormed, wellFormed_of_encodes h, allWellFormed_of_encodes hs]
    rfl

end

end Node

end Transclude
