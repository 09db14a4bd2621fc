import Transclude.Proofs.Tree.Encoding

/-!
# Trees that are built

A tree of nodes as the constructors make them is read back from its encoded form as it was
(`exists_encode_of_built`). Its nodes may carry data, and extra fields that mean nothing for their kinds:
these are neither read as anything else nor left out.
-/

namespace Transclude

/-! ## Fields that are left out -/

namespace Fields

/-- A field that is left out may as well be set before. -/
theorem without_set {key : String} {keys : List String} (h : key ∈ keys) (value : Value)
    (fields : Fields) : (fields.set key value).without keys = fields.without keys := by
  unfold without
  induction fields with
  | nil => simp [set, h]
  | cons field rest ih =>
    obtain ⟨name, old⟩ := field
    rw [set]
    split
    · next hname => simp [hname, h]
    · rw [List.filter_cons, List.filter_cons, ih]

/-- Fields that are left out may as well be set before. -/
theorem without_setAll {keys : List String} {own : Fields} (h : ∀ key ∈ own.map Prod.fst, key ∈ keys)
    (fields : Fields) : (fields.setAll own).without keys = fields.without keys := by
  induction own generalizing fields with
  | nil => rfl
  | cons field rest ih =>
    rw [List.map_cons, List.forall_mem_cons] at h
    have hrest := ih h.2 (fields.set field.1 field.2)
    rw [without_set h.1] at hrest
    exact hrest

/-- A single field is there if it has a value. -/
theorem mem_keys_single {key name : String} {value : Option Value} :
    name ∈ (single key value).map Prod.fst ↔ name = key ∧ value.isSome = true := by
  cases value <;> simp [single]

/-- Leaving out fields that are not there changes nothing. -/
theorem without_eq_self {keys : List String} {fields : Fields}
    (h : ∀ key ∈ keys, fields.get? key = none) : fields.without keys = fields := by
  refine List.filter_eq_self.mpr fun field hfield => ?_
  rw [Bool.not_eq_true', List.contains_eq_mem, decide_eq_false_iff_not]
  exact fun hkey => get?_eq_none.mp (h _ hkey) (List.mem_map_of_mem hfield)

end Fields

/-! ## Reading what is written -/

namespace Make

/-- The type that the node states. -/
def type : Make → String
  | .root => "root"
  | .element _ _ => "element"
  | .text _ => "text"
  | .comment _ => "comment"
  | .doctype => "doctype"
  | .other type _ => type

/-- The type is the first of the node's own fields. -/
theorem get?_fields_type (m : Make) : m.fields.get? "type" = some (.str m.type) := by
  cases m <;> rfl

/-- What a node is can be read from fields that state it. -/
theorem headOf_of_own {m : Make} (hkind : Kind.ofTypeName m.type = m.kind) {fields : Fields}
    (hown : ∀ key ∈ m.fields.map Prod.fst, fields.get? key = m.fields.get? key)
    (hlisted : m.kind.isContainer = true → fields.has "children" = m.listed) :
    Node.headOf m.type fields = .ok m.head := by
  unfold Node.headOf
  rw [hkind]
  cases m with
  | root | doctype => rfl
  | element tag properties =>
    have htag : fields.get? "tagName" = some tag := hown _ (by simp [Make.fields])
    have hproperties : fields.get? "properties" = some (.obj properties) :=
      hown _ (by simp [Make.fields])
    have hgiven : (Value.obj properties).givenObject = .ok (.obj properties) := by
      cases properties <;> rfl
    dsimp only [kind]
    rw [htag, hproperties, Option.getD_some, Option.getD_some, hgiven]
    rfl
  | text value =>
    have hvalue : fields.get? "value" = some (.str value) := hown _ (by simp [Make.fields])
    dsimp only [kind]
    rw [hvalue]
    rfl
  | comment value =>
    have hvalue : fields.get? "value" = some value := hown _ (by simp [Make.fields])
    dsimp only [kind]
    rw [hvalue]
    rfl
  | other type listed =>
    have hhas : fields.has "children" = listed := hlisted (Kind.isContainer_eq .other)
    dsimp only [kind, Make.type]
    rw [hhas]
    rfl

/-- The type that the form of a node states means the node's kind. -/
theorem kind?_form {m : Make} (hkind : Kind.ofTypeName m.type = m.kind) (info : Info)
    (items : List Value) : (m.form info items).kind? = some m.kind := by
  have hmem : "type" ∈ m.fields.map Prod.fst := by cases m <;> simp [fields]
  rw [Fields.kind?, get?_form_own m info items hmem, get?_fields_type]
  exact congrArg some hkind

/-- The form of a node lists the forms of its children. -/
theorem items_form {m : Make} (hkind : Kind.ofTypeName m.type = m.kind) {info : Info}
    (hextra : ∀ key ∈ m.kind.knownFields, info.extra.get? key = none) {items : List Value}
    (hunlisted : m.listed = false → items = []) :
    (m.form info items).items = items ∧ (m.form info items).ListsItems := by
  have hchildren (hcontainer : m.kind.isContainer = true) :
      (m.form info items).get? "children" = m.children? items :=
    get?_form_children m items
      (hextra _ ((mem_knownFields m _).mpr (.inr (.inl ⟨hcontainer, rfl⟩))))
  have hitems : (m.form info items).items = items := by
    rw [Fields.items, kind?_form hkind, Option.any_some]
    cases hcontainer : m.kind.isContainer with
    | false =>
      have hlisted : m.listed = false := by
        rw [← Bool.not_eq_true]
        exact fun hlisted => by simp [isContainer_of_listed hlisted] at hcontainer
      exact (hunlisted hlisted).symm
    | true =>
      rw [hchildren hcontainer, children?]
      cases hlisted : m.listed with
      | false => exact (hunlisted hlisted).symm
      | true => rfl
  refine ⟨hitems, fun hcontainer => ?_⟩
  rw [kind?_form hkind, Option.any_some] at hcontainer
  rw [hitems, hchildren hcontainer, children?]
  cases m.listed <;> simp

/-- Only fields that mean something for the node's kind are set in its form. -/
theorem mem_knownFields_of_mem_form (m : Make) (info : Info) (items : List Value) :
    ∀ key ∈ (m.fields ++ (Fields.single "children" (m.children? items) ++
      Fields.single "data" info.data?)).map Prod.fst, key ∈ m.kind.knownFields := by
  intro key hkey
  rw [List.map_append, List.map_append, List.mem_append, List.mem_append, Fields.mem_keys_single,
    Fields.mem_keys_single] at hkey
  rw [mem_knownFields]
  rcases hkey with hown | ⟨rfl, hchildren⟩ | ⟨rfl, -⟩
  · exact .inl hown
  · have hlisted : m.listed = true := by
      unfold children? at hchildren
      cases hlisted : m.listed with
      | true => rfl
      | false => simp [hlisted] at hchildren
    exact .inr (.inl ⟨isContainer_of_listed hlisted, rfl⟩)
  · exact .inr (.inr rfl)

/-- A node is read back from its form. -/
theorem decode_form {m : Make} (hkind : Kind.ofTypeName m.type = m.kind) {info : Info}
    (hextra : ∀ key ∈ m.kind.knownFields, info.extra.get? key = none) {items : List Value}
    (hunlisted : m.listed = false → items = []) {children : List Node}
    (hitems : Node.decodeAll items = .ok children) :
    Node.decode (.obj (m.form info items)) = .ok (.node m.head info children) := by
  obtain ⟨hlist, hlists⟩ := items_form hkind hextra hunlisted
  have hmem : "type" ∈ m.fields.map Prod.fst := by cases m <;> simp [fields]
  have htype : (m.form info items).get? "type" = some (.str m.type) := by
    rw [get?_form_own m info items hmem, get?_fields_type]
  have hhead : Node.headOf m.type (m.form info items) = .ok m.head := by
    refine headOf_of_own hkind (fun key hkey => get?_form_own m info items hkey) fun hcontainer => ?_
    rw [Fields.has, get?_form_children m items
      (hextra _ ((mem_knownFields m _).mpr (.inr (.inl ⟨hcontainer, rfl⟩)))), children?]
    cases m.listed <;> rfl
  have hdata : ((m.form info items).get? "data").getD .null = info.data := by
    rw [get?_form_data m items (hextra _ ((mem_knownFields m _).mpr (.inr (.inr rfl)))), Info.data?]
    cases info.data <;> rfl
  have hrest : (m.form info items).without m.kind.knownFields = info.extra := by
    rw [form, Fields.without_setAll (mem_knownFields_of_mem_form m info items),
      Fields.without_eq_self hextra]
  rw [← hlist] at hitems
  rw [Node.decode_obj htype hhead hlists hitems, hkind, hdata, hrest]

end Make

namespace Node

/-- A tree of nodes as the constructors make them, which may carry data, and extra fields that mean
nothing for their kinds. No type of a node of another type is that of one of the five kinds. -/
inductive Built : Node → Prop where
  /-- A node is built of what it is and of its children, if it has a list of them. -/
  | made {m : Make} (hkind : Kind.ofTypeName m.type = m.kind) {info : Info}
      (hextra : ∀ key ∈ m.kind.knownFields, info.extra.get? key = none) {children : List Node}
      (hunlisted : m.listed = false → children = []) (hchildren : ∀ n ∈ children, Built n) :
    Built (.node m.head info children)

/-- Trees that are read back each from its form are read back as a list. -/
theorem exists_encodeAll {ns : List Node} (h : ∀ n ∈ ns, ∃ d, encode n = .ok d ∧ decode d = .ok n) :
    ∃ items, encodeAll ns = .ok items ∧ decodeAll items = .ok ns := by
  induction ns with
  | nil => exact ⟨[], rfl, rfl⟩
  | cons n rest ih =>
    rw [List.forall_mem_cons] at h
    obtain ⟨item, hencode, hdecode⟩ := h.1
    obtain ⟨items, hencodes, hdecodes⟩ := ih h.2
    refine ⟨item :: items, ?_, ?_⟩
    · rw [encodeAll, hencode, hencodes]
      rfl
    · rw [decodeAll, hdecode, hdecodes]
      rfl

/-- A tree that is built is read back from its encoded form. -/
theorem exists_encode_of_built {n : Node} (h : n.Built) :
    ∃ d, encode n = .ok d ∧ decode d = .ok n := by
  induction h with
  | @made m hkind info hextra children hunlisted _ ih =>
    obtain ⟨items, hencodes, hdecodes⟩ := exists_encodeAll ih
    refine ⟨_, m.encode_node info hencodes, Make.decode_form hkind hextra (fun hlisted => ?_) hdecodes⟩
    obtain rfl := hunlisted hlisted
    exact (Except.ok.inj hencodes).symm

end Node

end Transclude
