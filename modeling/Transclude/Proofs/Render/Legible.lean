import Transclude.Proofs.Render.ReadBack
import Mathlib.Data.List.Infix

/-!
# Trees that can be read back

The HTML of a list of trees determines the trees, but for what their nodes carry along, if they are
legible: if they are elements, texts, comments and document types only, whose names, comments and texts
keep clear of the signs of the markup (`toHtml_injective`). A node is told by the characters that it
begins with, and then read back by its parts.
-/

namespace Transclude

namespace Node

mutual

/-- A tree without what its nodes carry along. -/
def withoutInfo : Node → Node
  | .node head _ children => .node head {} (withoutInfoAll children)
  | .stray value => .stray value

/-- The trees of a list without what their nodes carry along. -/
def withoutInfoAll : List Node → List Node
  | [] => []
  | n :: rest => withoutInfo n :: withoutInfoAll rest

end

/-- Whether a list begins with a text. -/
def beginsWithText : List Node → Bool
  | n :: _ => n.isText
  | [] => false

mutual

/-- Whether a tree can be read back from its HTML. The names in it are made of letters, digits and
hyphens, an element without an end tag has no children, no text is empty or follows another, and no
comment has the end of one in it. -/
def legible : Node → Bool
  | .node (.element tag properties) _ children =>
    Text.isName tag && properties.all isOwnAttribute &&
      (!voidTags.contains tag || children.isEmpty) && allLegible children
  | .node (.text s) _ children => s != "" && children.isEmpty
  | .node (.comment s) _ children =>
    !decide (Text.commentEnd <:+: s.toList) && children.isEmpty
  | .node .doctype _ children => children.isEmpty
  | _ => false

/-- Whether a list of trees can be read back from its HTML. -/
def allLegible : List Node → Bool
  | [] => true
  | n :: rest => legible n && !(n.isText && beginsWithText rest) && allLegible rest

end

/-- A legible element has a name as its tag, attributes of their own, and legible children. -/
theorem legible_element {tag : String} {properties : Fields} {info : Info} {children : List Node} :
    (Node.node (.element tag properties) info children).legible = true ↔
      Text.isName tag = true ∧ (∀ property ∈ properties, isOwnAttribute property = true) ∧
        (voidTags.contains tag = true → children = []) ∧ allLegible children = true := by
  simp only [legible, Bool.and_eq_true, Bool.or_eq_true, Bool.not_eq_true', List.all_eq_true,
    List.isEmpty_iff, and_assoc, ← Bool.not_eq_true,
    Decidable.imp_iff_not_or]

/-- A legible text is not empty. -/
theorem legible_text {s : String} {info : Info} {children : List Node} :
    (Node.node (.text s) info children).legible = true ↔ s ≠ "" ∧ children = [] := by
  simp [legible]

/-- A legible comment has no end of a comment in it. -/
theorem legible_comment {s : String} {info : Info} {children : List Node} :
    (Node.node (.comment s) info children).legible = true ↔
      ¬ Text.commentEnd <:+: s.toList ∧ children = [] := by
  simp [legible]

/-- A legible document type has no children. -/
theorem legible_doctype {info : Info} {children : List Node} :
    (Node.node .doctype info children).legible = true ↔ children = [] := by
  simp [legible]

mutual

/-- A legible tree is well formed. -/
theorem wellFormed_of_legible : ∀ n : Node, n.legible = true → n.wellFormed = true
  | .stray value, h => by simp [legible] at h
  | .node head info children, h => by
    rw [wellFormed_node]
    cases head with
    | element tag properties =>
      have hlisted : (Kinds.single .element).within .containers = true := by decide
      obtain ⟨-, -, -, hchildren⟩ := legible_element.mp h
      exact ⟨rfl, .inl hlisted, allWellFormed_of_allLegible children hchildren⟩
    | text s =>
      obtain ⟨-, rfl⟩ := legible_text.mp h
      exact ⟨rfl, .inr rfl, by rw [allWellFormed]⟩
    | comment s =>
      obtain ⟨-, rfl⟩ := legible_comment.mp h
      exact ⟨rfl, .inr rfl, by rw [allWellFormed]⟩
    | doctype =>
      obtain rfl := legible_doctype.mp h
      exact ⟨rfl, .inr rfl, by rw [allWellFormed]⟩
    | root | other | irregular => simp [legible] at h

/-- Legible trees are well formed. -/
theorem allWellFormed_of_allLegible : ∀ ns : List Node, allLegible ns = true →
    allWellFormed ns = true
  | [], _ => by rw [allWellFormed]
  | n :: rest, h => by
    simp only [allLegible, Bool.and_eq_true] at h
    rw [allWellFormed, wellFormed_of_legible n h.1.1, allWellFormed_of_allLegible rest h.2]
    rfl

end

end Node

namespace Render

open Node

/-! ## What a node begins with -/

/-- The kind of the node that something written begins with. It begins with none at its end and at an
end tag. -/
def firstKind : List Char → Option Kind
  | [] => none
  | '<' :: '/' :: _ => none
  | '<' :: '!' :: '-' :: _ => some .comment
  | '<' :: '!' :: _ => some .doctype
  | '<' :: _ => some .element
  | _ => some .text

/-- Only a text begins with a character that begins no tag. -/
theorem firstKind_cons {c : Char} (hc : c ≠ '<') (rest : List Char) :
    firstKind (c :: rest) = some .text := by
  unfold firstKind
  split <;> simp_all

/-- A start tag begins with a character of a name. -/
theorem firstKind_tag {c : Char} (hc : Text.isNameChar c = true) (rest : List Char) :
    firstKind ('<' :: c :: rest) = some .element := by
  have hslash : c ≠ '/' := by
    rintro rfl
    exact absurd hc (by decide)
  have hbang : c ≠ '!' := by
    rintro rfl
    exact absurd hc (by decide)
  unfold firstKind
  split <;> simp_all

/-- What begins with no text begins with a tag, if it is not at its end. -/
theorem head_of_firstKind {rest : List Char} (h : firstKind rest ≠ some .text) :
    ∀ c ∈ rest.head?, c = '<' := by
  cases rest with
  | nil => simp
  | cons c rest =>
    intro d hd
    obtain rfl : c = d := by simpa using hd
    exact Decidable.byContradiction fun hne => h (firstKind_cons hne rest)

/-- A name begins with a character that stands in names. -/
theorem exists_of_isName {name : String} (h : Text.isName name = true) :
    ∃ c cs, name.toList = c :: cs ∧ Text.isNameChar c = true := by
  simp only [Text.isName, Bool.and_eq_true, bne_iff_ne, ne_eq, ← String.toList_eq_nil_iff] at h
  cases hname : name.toList with
  | nil => exact absurd hname h.1
  | cons c cs =>
    rw [hname, List.all_cons, Bool.and_eq_true] at h
    exact ⟨c, cs, rfl, h.2.1⟩

/-- A text that is not empty begins with no angle bracket. -/
theorem exists_of_escape {s : String} (h : s ≠ "") :
    ∃ c cs, (Text.escape s).toList = c :: cs ∧ c ≠ '<' := by
  rw [Text.escape, String.toList_ofList]
  cases hs : s.toList with
  | nil => exact absurd (String.toList_eq_nil_iff.mp hs) h
  | cons c cs =>
    obtain ⟨d, ds, hwritten, -, hne⟩ := Text.escapeChar_begins c
    exact ⟨d, ds ++ cs.flatMap Text.escapeChar, by simp [hwritten], hne⟩

/-- The characters of a text. -/
theorem toList_text (s : String) (info : Info) (children : List Node) :
    (written .html (.node (.text s) info children)).toList = (Text.escape s).toList := rfl

/-- The characters of a comment. -/
theorem toList_comment (s : String) (info : Info) (children : List Node) :
    (written .html (.node (.comment s) info children)).toList =
      '<' :: '!' :: '-' :: '-' :: (s.toList ++ Text.commentEnd) := by
  simp [written, Text.commentEnd]

/-- The characters of a document type. -/
theorem toList_doctype (info : Info) (children : List Node) :
    (written .html (.node .doctype info children)).toList = "<!doctype html>".toList := rfl

/-- A property with an attribute of its own has it written. -/
theorem attribute?_of_isOwnAttribute {property : String × Value}
    (h : isOwnAttribute property = true) :
    attribute? property.1 property.2 = some (valuedAttribute property.1 property.2) := by
  obtain ⟨name, value⟩ := property
  simp only [isOwnAttribute, Bool.and_eq_true, Option.isNone_iff_eq_none] at h
  obtain ⟨⟨-, hname⟩, hvalue⟩ := h
  cases value <;> simp only [Value.isStr, Bool.false_eq_true] at hvalue
  simp [attribute?, attributeName, hname]

/-- The characters of attributes, with a blank before the first one. -/
theorem toList_attributes {property : String × Value} {rest : Fields}
    (h : ∀ p ∈ property :: rest, isOwnAttribute p = true) :
    ' ' :: (attributes (property :: rest)).toList =
      (property :: rest).flatMap spacedAttribute := by
  have hfirst := attribute?_of_isOwnAttribute (h property List.mem_cons_self)
  induction rest generalizing property with
  | nil => simp [attributes, hfirst, spacedAttribute]
  | cons next rest ih =>
    have hrest : ∀ p ∈ next :: rest, isOwnAttribute p = true := fun p hp =>
      h p (List.mem_cons_of_mem _ hp)
    have hnext := attribute?_of_isOwnAttribute (hrest next List.mem_cons_self)
    have hcons : attributes (property :: next :: rest) =
        valuedAttribute property.1 property.2 ++ " " ++ attributes (next :: rest) := by
      simp only [attributes, List.filterMap_cons, hfirst, hnext, String.intercalate_cons_cons]
    rw [hcons, List.flatMap_cons, ← ih hrest hnext]
    simp [spacedAttribute]

/-- The characters of a start tag. -/
theorem toList_opening {tag : String} {properties : Fields}
    (h : ∀ property ∈ properties, isOwnAttribute property = true) :
    (opening tag properties).toList =
      '<' :: (tag.toList ++ (properties.flatMap spacedAttribute ++ ['>'])) := by
  cases properties with
  | nil => simp [opening, attributes]
  | cons property rest =>
    have hblank := toList_attributes h
    have hne : attributes (property :: rest) ≠ "" := by
      intro hempty
      simp [hempty, spacedAttribute, valuedAttribute] at hblank
    rw [opening, if_neg hne, ← hblank]
    simp

/-- The characters of an element and of what comes after it. -/
theorem toList_element_append {tag : String} {properties : Fields} {info : Info}
    {children : List Node}
    (h : (Node.node (.element tag properties) info children).legible = true) (rest : List Char) :
    (written .html (.node (.element tag properties) info children)).toList ++ rest =
      '<' :: (tag.toList ++ (properties.flatMap spacedAttribute ++ '>' ::
        if voidTags.contains tag then rest
        else (writtenAll .html children).toList ++ '<' :: '/' :: (tag.toList ++ '>' :: rest))) := by
  obtain ⟨-, hproperties, hvoid, -⟩ := legible_element.mp h
  rw [written, String.toList_append, toList_opening hproperties]
  cases htag : voidTags.contains tag with
  | true =>
    obtain rfl := hvoid htag
    simp
  | false => simp

/-- The kind of a legible node can be told from what is written for it. -/
theorem firstKind_written {head : Head} {info : Info} {children : List Node}
    (h : (Node.node head info children).legible = true) (rest : List Char) :
    firstKind ((written .html (.node head info children)).toList ++ rest) = some head.kind := by
  cases head with
  | element tag properties =>
    obtain ⟨c, cs, hname, hchar⟩ := exists_of_isName (legible_element.mp h).1
    rw [toList_element_append h, hname, List.cons_append]
    exact firstKind_tag hchar _
  | text s =>
    obtain ⟨c, cs, hwritten, hne⟩ := exists_of_escape (legible_text.mp h).1
    rw [toList_text, hwritten, List.cons_append]
    exact firstKind_cons hne _
  | comment s =>
    rw [toList_comment]
    rfl
  | doctype =>
    rw [toList_doctype]
    rfl
  | root | other | irregular => simp [legible] at h

/-- The kind of a legible list's first node can be told from what is written for the list. -/
theorem firstKind_writtenAll {head : Head} {info : Info} {children ns : List Node}
    (h : allLegible (.node head info children :: ns) = true) (rest : List Char) :
    firstKind ((writtenAll .html (.node head info children :: ns)).toList ++ rest) =
      some head.kind := by
  simp only [allLegible, Bool.and_eq_true] at h
  rw [writtenAll, String.toList_append, List.append_assoc, firstKind_written h.1.1]

/-- Where a list ends no legible list begins. -/
theorem writtenAll_append_ne {n : Node} {ns : List Node} (h : allLegible (n :: ns) = true)
    {rest : List Char} (hrest : firstKind rest = none) (others : List Char) :
    rest ≠ (writtenAll .html (n :: ns)).toList ++ others := by
  rintro rfl
  cases n with
  | stray value => simp [allLegible, legible] at h
  | node head info children => simp [firstKind_writtenAll h] at hrest

/-- What follows a text in a legible list, also at its end, begins with no text. -/
theorem firstKind_ne_text {n : Node} {ns : List Node} (h : allLegible (n :: ns) = true)
    (htext : n.isText = true) {rest : List Char} (hrest : firstKind rest = none) :
    firstKind ((writtenAll .html ns).toList ++ rest) ≠ some .text := by
  simp only [allLegible, htext, Bool.true_and, Bool.and_eq_true, Bool.not_eq_true'] at h
  obtain ⟨⟨-, hfirst⟩, hlegible⟩ := h
  cases ns with
  | nil => simp [writtenAll, hrest]
  | cons m ms =>
    have hm := allWellFormed_of_allLegible _ hlegible
    rw [allWellFormed, Bool.and_eq_true] at hm
    obtain ⟨head, info, children, rfl, hr⟩ := exists_of_wellFormed hm.1
    rw [firstKind_writtenAll hlegible]
    rw [beginsWithText, isText, Head.isKind_of_isRegular hr] at hfirst
    simpa using hfirst

/-! ## Reading trees back -/

/-- The tag and the attributes of an element can be read back. -/
theorem eq_of_element {tag tag' : String} {properties properties' : Fields} {info info' : Info}
    {children children' : List Node}
    (h : (Node.node (.element tag properties) info children).legible = true)
    (h' : (Node.node (.element tag' properties') info' children').legible = true)
    {rest others : List Char}
    (heq : (written .html (.node (.element tag properties) info children)).toList ++ rest =
      (written .html (.node (.element tag' properties') info' children')).toList ++ others) :
    tag = tag' ∧ properties = properties' ∧
      (if voidTags.contains tag then rest
        else (writtenAll .html children).toList ++ '<' :: '/' :: (tag.toList ++ '>' :: rest)) =
      (if voidTags.contains tag' then others
        else (writtenAll .html children').toList ++ '<' :: '/' :: (tag'.toList ++ '>' :: others)) := by
  rw [toList_element_append h, toList_element_append h'] at heq
  obtain ⟨hname, hproperties, -⟩ := legible_element.mp h
  obtain ⟨hname', hproperties', -⟩ := legible_element.mp h'
  -- A name ends before the blank of an attribute and before the end of its tag.
  have hends (properties : Fields) (rest : List Char) :
      ∀ c ∈ (properties.flatMap spacedAttribute ++ '>' :: rest).head?,
        Text.isNameChar c = false := by
    cases properties <;> simp [spacedAttribute, Text.isNameChar]
  obtain ⟨htag, hattributes⟩ := Text.readsBack_name tag tag' _ _ hname hname' (hends _ _) (hends _ _)
    (List.cons.inj heq).2
  obtain ⟨hsame, hbody⟩ := readsBack_spacedAttributes properties properties' _ _ hproperties
    hproperties' (by simp) (by simp) hattributes
  exact ⟨htag, hsame, (List.cons.inj hbody).2⟩

mutual

/-- A legible node can be read back, if no text follows a text. -/
theorem eq_of_written : ∀ n : Node, n.legible = true → ∀ {m : Node}, m.legible = true →
    ∀ {rest others : List Char}, (n.isText = true → firstKind rest ≠ some .text) →
      (m.isText = true → firstKind others ≠ some .text) →
      (written .html n).toList ++ rest = (written .html m).toList ++ others →
      n.withoutInfo = m.withoutInfo ∧ rest = others
  | .stray value, hn, _, _, _, _, _, _, _ => by simp [legible] at hn
  | .node head info children, hn, .stray value, hm, _, _, _, _, _ => by simp [legible] at hm
  | .node head info children, hn, .node head' info' children', hm, rest, others, hrest, hothers,
      heq => by
    -- The kind of a node can be told by the characters that it begins with, so there is one case for
    -- each kind.
    have hkind : head.kind = head'.kind := by
      have hfirst := firstKind_written hn rest
      rw [heq, firstKind_written hm others] at hfirst
      exact (Option.some.inj hfirst).symm
    cases head with
    | element tag properties =>
      cases head' with
      | element tag' properties' =>
        -- The tag and the properties are read back. A void tag ends the element, and any other is
        -- followed by the children, which are read up to the closing tag.
        obtain ⟨rfl, rfl, hbody⟩ := eq_of_element hn hm heq
        obtain ⟨-, -, hvoid, hchildren⟩ := legible_element.mp hn
        obtain ⟨-, -, hvoid', hchildren'⟩ := legible_element.mp hm
        cases htag : voidTags.contains tag with
        | true =>
          obtain rfl := hvoid htag
          obtain rfl := hvoid' htag
          rw [htag] at hbody
          exact ⟨rfl, hbody⟩
        | false =>
          rw [htag] at hbody
          obtain ⟨hsame, hend⟩ := eq_of_writtenAll children hchildren hchildren' rfl rfl hbody
          rw [withoutInfo, withoutInfo, hsame]
          exact ⟨rfl, by simpa using hend⟩
      | _ => simp [Head.kind] at hkind
    | text s =>
      cases head' with
      | text s' =>
        -- A text ends where something else begins, as no text follows it.
        obtain ⟨-, rfl⟩ := legible_text.mp hn
        obtain ⟨-, rfl⟩ := legible_text.mp hm
        obtain ⟨rfl, hafter⟩ := Text.readsBack_escape s s' rest others trivial trivial
          (head_of_firstKind (hrest rfl)) (head_of_firstKind (hothers rfl)) heq
        exact ⟨rfl, hafter⟩
      | _ => simp [Head.kind] at hkind
    | comment s =>
      cases head' with
      | comment s' =>
        -- A comment ends at the first mark that closes it, as it has none inside.
        obtain ⟨hs, rfl⟩ := legible_comment.mp hn
        obtain ⟨hs', rfl⟩ := legible_comment.mp hm
        rw [toList_comment, toList_comment] at heq
        obtain ⟨rfl, hafter⟩ := Text.readsBack_comment s s' rest others hs hs' trivial trivial
          (by simpa using heq)
        exact ⟨rfl, hafter⟩
      | _ => simp [Head.kind] at hkind
    | doctype =>
      cases head' with
      | doctype =>
        obtain rfl := legible_doctype.mp hn
        obtain rfl := legible_doctype.mp hm
        exact ⟨rfl, List.append_cancel_left heq⟩
      | _ => simp [Head.kind] at hkind
    | root | other | irregular => simp [legible] at hn

/-- A legible list of nodes can be read back up to its end. -/
theorem eq_of_writtenAll : ∀ ns : List Node, allLegible ns = true →
    ∀ {ms : List Node}, allLegible ms = true → ∀ {rest others : List Char},
      firstKind rest = none → firstKind others = none →
      (writtenAll .html ns).toList ++ rest = (writtenAll .html ms).toList ++ others →
      withoutInfoAll ns = withoutInfoAll ms ∧ rest = others
  | [], _, [], _, _, _, _, _, heq => ⟨rfl, heq⟩
  | [], _, _ :: _, hms, _, others, hrest, _, heq =>
    absurd heq (writtenAll_append_ne hms hrest others)
  | _ :: _, hns, [], _, rest, _, _, hothers, heq =>
    absurd heq.symm (writtenAll_append_ne hns hothers rest)
  | n :: ns, hns, m :: ms, hms, rest, others, hrest, hothers, heq => by
    have hafter (htext : n.isText = true) := firstKind_ne_text hns htext hrest
    have hafter' (htext : m.isText = true) := firstKind_ne_text hms htext hothers
    simp only [allLegible, Bool.and_eq_true] at hns hms
    rw [writtenAll, writtenAll, String.toList_append, String.toList_append, List.append_assoc,
      List.append_assoc] at heq
    obtain ⟨hfirst, htails⟩ := eq_of_written n hns.1.1 hms.1.1 hafter hafter' heq
    obtain ⟨hothersame, hend⟩ := eq_of_writtenAll ns hns.2 hms.2 hrest hothers htails
    rw [withoutInfoAll, withoutInfoAll, hfirst, hothersame]
    exact ⟨rfl, hend⟩

end

end Render

/-! ## Main result -/

mutual

/-- What a legible node carries along is not written. -/
theorem Render.written_withoutInfo (form : Form) : ∀ n : Node, n.legible = true →
    Render.written form n.withoutInfo = Render.written form n
  | .stray value, _ => rfl
  | .node head info children, h => by
    cases head with
    | element tag properties =>
      have hchildren := writtenAll_withoutInfoAll form children (Node.legible_element.mp h).2.2.2
      have hempty : (Node.withoutInfoAll children).isEmpty = children.isEmpty := by
        cases children <;> rfl
      rw [Node.withoutInfo, written, written, hchildren, hempty]
    | text | comment | doctype => rfl
    | root | other | irregular => simp [Node.legible] at h

/-- What legible nodes carry along is not written. -/
theorem Render.writtenAll_withoutInfoAll (form : Form) : ∀ ns : List Node,
    Node.allLegible ns = true →
    Render.writtenAll form (Node.withoutInfoAll ns) = Render.writtenAll form ns
  | [], _ => rfl
  | n :: ns, h => by
    simp only [Node.allLegible, Bool.and_eq_true] at h
    rw [Node.withoutInfoAll, writtenAll, writtenAll, written_withoutInfo form n h.1.1,
      writtenAll_withoutInfoAll form ns h.2]

end

/-- Legible trees can be written as HTML, and two lists of them are written alike exactly if they are
the same but for what their nodes carry along. -/
theorem toHtml_injective (ns ms : List Node) (hns : Node.allLegible ns = true)
    (hms : Node.allLegible ms = true) :
    ∃ s t, toHtml ns = .ok s ∧ toHtml ms = .ok t ∧
      (s = t ↔ Node.withoutInfoAll ns = Node.withoutInfoAll ms) := by
  refine ⟨Render.writtenAll .html ns, Render.writtenAll .html ms,
    Render.nodes_of_allWellFormed .html _ ns (Node.allWellFormed_of_allLegible ns hns),
    Render.nodes_of_allWellFormed .html _ ms (Node.allWellFormed_of_allLegible ms hms), ?_, ?_⟩
  · intro heq
    have hchars : (Render.writtenAll .html ns).toList ++ [] =
        (Render.writtenAll .html ms).toList ++ [] := by rw [heq]
    exact (Render.eq_of_writtenAll ns hns hms rfl rfl hchars).1
  · intro heq
    rw [← Render.writtenAll_withoutInfoAll .html ns hns, heq,
      Render.writtenAll_withoutInfoAll .html ms hms]

/-- A paragraph with an attribute, a text, a line break and a comment that ends in hyphens. -/
def sampleParagraph (title shown : String) (info : Info) : List Node :=
  [.node (.element "p" [("title", .str title)]) info
    [Node.text shown, Node.element "br" [] [], .node (.comment "a--") {} []]]

/-- Signs of the markup in attributes and in texts do not make trees look alike. -/
theorem toHtml_injective_sampleParagraph :
    Node.allLegible (sampleParagraph "\">" "<br>" {}) = true ∧
      Node.allLegible (sampleParagraph "&quot;>" "<br>" ⟨.int 1, []⟩) = true ∧
      ∃ s t, toHtml (sampleParagraph "\">" "<br>" {}) = .ok s ∧
        toHtml (sampleParagraph "&quot;>" "<br>" ⟨.int 1, []⟩) = .ok t ∧
        (s = t ↔ Node.withoutInfoAll (sampleParagraph "\">" "<br>" {}) =
          Node.withoutInfoAll (sampleParagraph "&quot;>" "<br>" ⟨.int 1, []⟩)) :=
  have hfirst : Node.allLegible (sampleParagraph "\">" "<br>" {}) = true := by decide
  have hsecond : Node.allLegible (sampleParagraph "&quot;>" "<br>" ⟨.int 1, []⟩) = true := by decide
  ⟨hfirst, hsecond, toHtml_injective _ _ hfirst hsecond⟩

end Transclude
