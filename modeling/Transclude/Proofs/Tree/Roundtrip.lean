import Transclude.Proofs.Tree.Encoding

/-!
# Round trips

A node that is read from complete fields and written again has the same value for every key, unless
its data or its children differ: `Head.alike_form` reduces the comparison of a form with the fields
it was read from to these. From it follows what is lost when a tree is read and written
(`encode_of_encodes`), which is nothing but data that are stated to be absent, and when a text is
replaced by a new one (`alike_encode_text`), which is all that it carries.
-/

namespace Transclude

/-! ## Forms of nodes -/

namespace Head

variable {head : Head}

/-- The form of a node is like fields that state its head if the extra fields, the children and the
data are like theirs. -/
theorem alike_form {fields : Fields} (h : head.StatedBy fields) {info : Info}
    (hextra : ∀ key ∈ head.kind.knownFields, info.extra.get? key = none) (items : List Value) :
    Value.Alike (.obj (head.form info items)) (.obj fields) ↔
      (∀ key ∉ head.kind.knownFields,
        Option.Rel Value.Alike (info.extra.get? key) (fields.get? key)) ∧
      (head.kind.isContainer = true →
        Option.Rel Value.Alike (head.children? items) (fields.get? "children")) ∧
      Option.Rel Value.Alike info.data? (fields.get? "data") := by
  obtain ⟨m, hhead, hkind, hfields⟩ := exists_make h.regular
  obtain ⟨hchildren, hform⟩ := form_eq hhead hfields info items
  rw [hform, hchildren, ← hkind]
  rw [← hkind] at hextra
  exact Make.alike_form (hfields ▸ h.own) hextra items

/-- A node of a kind that may have no children has no list of them. -/
theorem listed_of_not_isContainer (hr : head.isRegular = true)
    (h : head.kind.isContainer = false) : head.listed = false := by
  cases hlisted : head.listed with
  | false => rfl
  | true => simp [isContainer_of_listed hr hlisted] at h

/-- Lists of children are like each other if their items are, as far as there is a list of them. -/
theorem rel_children? {items others : List Value}
    (h : head.listed = false → items = [] ∧ others = []) :
    Option.Rel Value.Alike (head.children? items) (head.children? others) ↔
      List.Forall₂ Value.Alike items others := by
  unfold children?
  cases hlisted : head.listed with
  | true => simp [Value.alike_arr]
  | false =>
    obtain ⟨rfl, rfl⟩ := h hlisted
    simp

end Head

/-! ## What is lost -/

namespace Value

/-- Data that are read are like those that are stated, unless these are absent. -/
theorem rel_data? (fields extra : Fields) :
    Option.Rel Alike (Info.data? ⟨(fields.get? "data").getD .null, extra⟩) (fields.get? "data") ↔
      fields.keepsData = true := by
  unfold Fields.keepsData Info.data?
  cases hdata : fields.get? "data" with
  | none => simp
  | some v => cases v <;> simp [Alike.refl]

variable {fields : Fields} {items : List Value} {head : Head}

/-- A test of all nodes is a test of the first and of all below it. -/
theorem everyNode_of_lists (p : Fields → Bool) (h : head.Lists fields items) :
    everyNode p (.obj fields) = (p fields && everyNodeAmong p items) := by
  rw [everyNode, h.stated.kind, Option.any_some]
  cases hcontainer : head.kind.isContainer with
  | false =>
    rw [h.unlisted (Head.listed_of_not_isContainer h.stated.regular hcontainer), everyNodeAmong]
    rfl
  | true =>
    rw [everyNodeIn_eq, h.children hcontainer, Head.children?]
    cases hlisted : head.listed with
    | false => simp [h.unlisted hlisted, everyNodeAmong]
    | true => simp [everyNodeBelow]

/-- A node that carries what was read is like what it was read from if its data were not stated to
be absent and its children are like those that were listed. -/
theorem alike_form_of_lists (h : head.Lists fields items) {others : List Value}
    (hothers : items = [] → others = []) :
    Alike (.obj (head.form
        ⟨(fields.get? "data").getD .null, fields.without head.kind.knownFields⟩ others))
      (.obj fields) ↔ fields.keepsData = true ∧ List.Forall₂ Alike others items := by
  have hunlisted : head.listed = false → others = [] ∧ items = [] := fun hlisted =>
    ⟨hothers (h.unlisted hlisted), h.unlisted hlisted⟩
  rw [Head.alike_form h.stated, rel_data?, ← Head.rel_children? hunlisted]
  · constructor
    · rintro ⟨-, hchildren, hdata⟩
      refine ⟨hdata, ?_⟩
      cases hcontainer : head.kind.isContainer with
      | false =>
        have hlisted := Head.listed_of_not_isContainer h.stated.regular hcontainer
        simp [Head.children?, hlisted]
      | true =>
        rw [← h.children hcontainer]
        exact hchildren hcontainer
    · rintro ⟨hdata, hchildren⟩
      refine ⟨fun key hkey => ?_, fun hcontainer => ?_, hdata⟩
      · rw [Fields.get?_without, if_neg hkey]
        exact Alike.rel_refl _
      · rw [h.children hcontainer]
        exact hchildren
  · intro key hkey
    rw [Fields.get?_without, if_pos hkey]

end Value

namespace Node

mutual

/-- A tree that was read can be written, as a value like the one that it was read from unless this
states absent data. -/
theorem encode_of_encodes : ∀ {d : Value} {n : Node}, d.Encodes n →
    ∃ d', encode n = .ok d' ∧ (d'.Alike d ↔ d.keepsData = true)
  | .obj fields, .node head _ children, .node h hchildren => by
    obtain ⟨others, hrun, halike⟩ := encodeAll_of_encodes hchildren
    refine ⟨_, encode_of_isRegular h.stated.regular _ hrun, ?_⟩
    rw [Value.alike_form_of_lists h, halike, Value.keepsData, Value.everyNode_of_lists _ h,
      Bool.and_eq_true]
    rintro rfl
    cases hchildren
    simpa [encodeAll] using hrun.symm

/-- Trees that were read can be written, as values like those that they were read from unless these
state absent data. -/
theorem encodeAll_of_encodes : ∀ {items : List Value} {ns : List Node},
    List.Forall₂ Value.Encodes items ns → ∃ others, encodeAll ns = .ok others ∧
      (List.Forall₂ Value.Alike others items ↔
        Value.everyNodeAmong Fields.keepsData items = true)
  | [], [], .nil => ⟨[], rfl, by simp [Value.everyNodeAmong]⟩
  | item :: items, n :: ns, .cons h hs => by
    obtain ⟨other, hrun, halike⟩ := encode_of_encodes h
    obtain ⟨others, hruns, hrest⟩ := encodeAll_of_encodes hs
    refine ⟨other :: others, ?_, ?_⟩
    · rw [encodeAll, hrun, hruns]
      rfl
    · rw [List.forall₂_cons, halike, hrest, Value.everyNodeAmong, Bool.and_eq_true, Value.keepsData]

end

/-! ## New texts -/

end Node

/-- Whether a node carries nothing along. -/
def Info.isBlank (info : Info) : Bool := info.data?.isNone && info.extra.isEmpty

namespace Node

/-- The information that a node carries along. -/
def info : Node → Info
  | .node _ info _ => info
  | .stray _ => {}

/-- There are no data if none are read, and none were stated to be absent. -/
theorem get?_data_eq_none (fields extra : Fields) :
    fields.get? "data" = none ↔ fields.keepsData = true ∧
      Info.data? ⟨(fields.get? "data").getD .null, extra⟩ = none := by
  unfold Fields.keepsData Info.data?
  cases hdata : fields.get? "data" with
  | none => simp
  | some v => cases v <;> simp

/-- A new text is written as a value like the one from which a text of the same value was read only
if that text carries nothing, and no absent data were stated. -/
theorem encode_text_of_encodes {d : Value} {n : Node} (h : d.Encodes n) {s : String}
    (htext : n.text? = some s) :
    ∃ d', encode (text s) = .ok d' ∧
      (d'.Alike d ↔ d.keepsData = true ∧ n.info.isBlank = true) := by
  cases h with
  | @node fields items head children h hchildren =>
    rw [text?_of_isRegular h.stated.regular] at htext
    cases head with
    | text t =>
      obtain rfl : t = s := Option.some.inj htext
      have hcontainer : (Head.text t).kind.isContainer = false := Kind.isContainer_eq .text
      have hlisted := Head.listed_of_not_isContainer h.stated.regular hcontainer
      have hrel : ∀ v : Option Value, Option.Rel Value.Alike none v ↔ v = none := by
        intro v
        cases v <;> simp
      have hextra : (∀ key ∉ (Head.text t).kind.knownFields, fields.get? key = none) ↔
          fields.without (Head.text t).kind.knownFields = [] := by
        rw [Fields.eq_nil_iff]
        simp only [Fields.get?_without, ite_eq_left_iff]
      refine ⟨_, encode_of_isRegular rfl {} (by rw [encodeAll]), ?_⟩
      rw [Head.alike_form h.stated fun _ _ => rfl, Value.keepsData, Value.everyNode_of_lists _ h,
        h.unlisted hlisted, Value.everyNodeAmong, Bool.and_true, Info.isBlank, info,
        Bool.and_eq_true, Option.isNone_iff_eq_none, List.isEmpty_iff, ← hextra]
      constructor
      · rintro ⟨hothers, -, hdata⟩
        obtain ⟨hkeeps, hnone⟩ := (get?_data_eq_none fields _).mp ((hrel _).mp hdata)
        exact ⟨hkeeps, hnone, fun key hkey => (hrel _).mp (hothers key hkey)⟩
      · rintro ⟨hkeeps, hnone, hothers⟩
        have hdata := (get?_data_eq_none fields _).mpr ⟨hkeeps, hnone⟩
        refine ⟨fun key hkey => (hrel _).mpr (hothers key hkey), fun h => ?_, (hrel _).mpr hdata⟩
        simp [hcontainer] at h
    | _ => simp [Head.text?] at htext

end Node

end Transclude
