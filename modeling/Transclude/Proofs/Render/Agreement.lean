import Transclude.Render.Plain
import Transclude.Proofs.Render.Written
import Transclude.Proofs.Text.Mark

/-!
# HTML and plain text agree

The plain text of a tree can be read off its HTML: leave out the tags, and read the references for the
ampersand and the angle brackets as these characters (`textValue_of_toHtml`). The tree may have any
texts and any values of properties, since nothing that is escaped can end a tag. Only what is written as
it is has to keep clear of the sign that ends one, which `Node.strippable` says.

What is left of the HTML without the tags is the escaped text, whatever comes after it: this goes
through the tree node by node (`withoutTags_written`). Reading the references then undoes the escaping
character by character (`readReferences_escape`).
-/

namespace Transclude

namespace Text

/-! ## Leaving out tags -/

/-- Characters without the stretches from an opening angle bracket to the next closing one. -/
def withoutTags : List Char → List Char
  | [] => []
  | c :: rest =>
    if c = '<' ∧ '>' ∈ rest then withoutTags (rest.dropWhile (· != '>')).tail
    else c :: withoutTags rest
termination_by cs => cs.length
decreasing_by
  · have hle : (rest.dropWhile (· != '>')).length ≤ rest.length :=
      (List.dropWhile_suffix (· != '>')).length_le
    simp only [List.length_tail, List.length_cons]
    omega
  · simp

/-- Whether characters are one stretch from an opening angle bracket to the next closing one. -/
def IsTag (cs : List Char) : Prop := ∃ inside, cs = '<' :: (inside ++ ['>']) ∧ '>' ∉ inside

/-- A tag is left out. -/
theorem withoutTags_of_isTag {cs : List Char} (h : IsTag cs) (rest : List Char) :
    withoutTags (cs ++ rest) = withoutTags rest := by
  obtain ⟨inside, rfl, hinside⟩ := h
  have hchars : '<' :: (inside ++ ['>']) ++ rest = '<' :: (inside ++ '>' :: rest) := by simp
  -- The next closing bracket is the one after what is inside.
  have hkept : ∀ c ∈ inside, (c != '>') = true := by
    intro c hc
    rw [bne_iff_ne]
    rintro rfl
    exact hinside hc
  have hclosing : ∀ c ∈ ('>' :: rest).head?, (c != '>') = false := by simp
  obtain ⟨-, hdrop⟩ := takeWhile_append_and_dropWhile hkept hclosing
  rw [hchars, withoutTags, if_pos (by simp), hdrop, List.tail_cons]

/-- Characters among which no tag begins stay. -/
theorem withoutTags_append {cs : List Char} (h : '<' ∉ cs) (rest : List Char) :
    withoutTags (cs ++ rest) = cs ++ withoutTags rest := by
  induction cs with
  | nil => rfl
  | cons c cs ih =>
    rw [List.mem_cons, not_or] at h
    have hc : ¬ (c = '<' ∧ '>' ∈ cs ++ rest) := fun hboth => h.1 hboth.1.symm
    rw [List.cons_append, withoutTags, if_neg hc, ih h.2, List.cons_append]

/-! ## Reading references -/

/-- Characters with the references for the ampersand and the angle brackets read from left to right. -/
def readReferences : List Char → List Char
  | '&' :: 'l' :: 't' :: ';' :: rest => '<' :: readReferences rest
  | '&' :: 'g' :: 't' :: ';' :: rest => '>' :: readReferences rest
  | '&' :: 'a' :: 'm' :: 'p' :: ';' :: rest => '&' :: readReferences rest
  | c :: rest => c :: readReferences rest
  | [] => []

/-- A character that is no ampersand begins no reference. -/
theorem readReferences_cons {c : Char} (hc : c ≠ '&') (rest : List Char) :
    readReferences (c :: rest) = c :: readReferences rest := by
  rw [readReferences]
  · exact fun _ h => absurd h hc
  · exact fun _ h => absurd h hc
  · exact fun _ h => absurd h hc

/-- A character that was escaped is read. -/
theorem readReferences_escapeChar (c : Char) (rest : List Char) :
    readReferences (escapeChar c ++ rest) = c :: readReferences rest := by
  unfold escapeChar
  split
  · next h => rw [h]; rfl
  · next hamp =>
    split
    · next h => rw [h]; rfl
    · split
      · next h => rw [h]; rfl
      · exact readReferences_cons hamp rest

/-- Reading the references of an escaped text gives the text. -/
theorem readReferences_escape (s : String) : readReferences (escape s).toList = s.toList := by
  rw [escape, String.toList_ofList]
  induction s.toList with
  | nil => rfl
  | cons c cs ih => rw [List.flatMap_cons, readReferences_escapeChar, ih]

/-! ## What is escaped -/

/-- An escaped character has no angle bracket in it. -/
theorem not_mem_escapeChar (c : Char) : '<' ∉ escapeChar c ∧ '>' ∉ escapeChar c := by
  unfold escapeChar
  split
  · decide
  · split
    · decide
    · next hopen =>
      split
      · decide
      · next hclose =>
        simp only [List.mem_singleton]
        exact ⟨Ne.symm hopen, Ne.symm hclose⟩

/-- No tag begins in an escaped text. -/
theorem not_mem_escape (s : String) : '<' ∉ (escape s).toList := by
  rw [escape, String.toList_ofList, List.mem_flatMap]
  rintro ⟨c, -, hc⟩
  exact (not_mem_escapeChar c).1 hc

/-- No tag ends in the value of an attribute. -/
theorem not_mem_escapeAttr (s : String) : '>' ∉ (escapeAttr s).toList := by
  rw [escapeAttr, String.toList_ofList, List.mem_flatMap]
  rintro ⟨c, -, hc⟩
  unfold escapeAttrChar at hc
  split at hc
  · exact absurd hc (by decide)
  · split at hc
    · exact absurd hc (by decide)
    · exact (not_mem_escapeChar c).2 hc

end Text

/-! ## Attributes -/

/-- No tag ends in the name of an attribute if none ends in that of the property. -/
theorem not_mem_attributeName {property : String} (h : '>' ∉ property.toList) :
    '>' ∉ (attributeName property).toList := by
  unfold attributeName
  cases hlookup : attributeNames.lookup property with
  | none => exact h
  | some name =>
    -- The names that are given are those of the table.
    have hmem : (property, name) ∈ attributeNames := by
      obtain ⟨front, back, heq, -⟩ := List.lookup_eq_some_iff.mp hlookup
      simp [heq]
    have htable : ∀ entry ∈ attributeNames, '>' ∉ entry.2.toList := by decide
    exact htable _ hmem

/-- No tag ends in an attribute if none ends in the name of the property. -/
theorem not_mem_attribute? {property : String} {value : Value} {shown : String}
    (h : '>' ∉ property.toList) (hshown : attribute? property value = some shown) :
    '>' ∉ shown.toList := by
  have hname := not_mem_attributeName h
  have hvalued (value : Value) :
      '>' ∉ (valuedAttribute (attributeName property) value).toList := by
    have hvalue := Text.not_mem_escapeAttr (propertyText value)
    simp [valuedAttribute, hname, hvalue]
  unfold attribute? at hshown
  split at hshown
  · simp at hshown
  · simp at hshown
  · obtain rfl := Option.some.inj hshown
    exact hname
  · obtain rfl := Option.some.inj hshown
    exact hvalued value

/-- No tag ends in attributes if none ends in the names of the properties. -/
theorem not_mem_attributes {properties : Fields}
    (h : ∀ property ∈ properties, '>' ∉ property.1.toList) : '>' ∉ (attributes properties).toList := by
  intro hmem
  rw [attributes, String.toList_intercalate] at hmem
  rcases Text.mem_intercalate hmem with hblank | ⟨cs, hcs, hc⟩
  · exact absurd hblank (by decide)
  · obtain ⟨shown, hshown, rfl⟩ := List.mem_map.mp hcs
    obtain ⟨property, hproperty, hattribute⟩ := List.mem_filterMap.mp hshown
    exact not_mem_attribute? (h property hproperty) hattribute hc

/-! ## Trees -/

namespace Node

mutual

/-- Whether tags can be told from text in the HTML of a tree: the sign that ends a tag stands in no tag,
in no name of a property and in no comment, and no node of another type brings markup with it. -/
def strippable : Node → Bool
  | .node (.element tag properties) _ children =>
    !tag.toList.contains '>' && properties.all (fun property => !property.1.toList.contains '>') &&
      allStrippable children
  | .node (.comment s) _ _ => !s.toList.contains '>'
  | .node (.other _ _) info children =>
    (info.extra.get? "value").all (fun value => !value.isStr) && allStrippable children
  | .node _ _ children => allStrippable children
  | .stray _ => true

/-- Whether tags can be told from text in the HTML of a list of trees. -/
def allStrippable : List Node → Bool
  | [] => true
  | n :: rest => strippable n && allStrippable rest

end

/-- A node that is no text has the text of its children. -/
theorem textOf_of_textsOf {head : Head} (hregular : head.isRegular = true) (hkind : head.kind ≠ .text)
    (info : Info) {children : List Node} {s : String} (h : textsOf children = .ok (some s)) :
    (Node.node head info children).textOf = .ok (some s) := by
  rw [textOf, Head.isKind_of_isRegular hregular, Head.isBare_of_isRegular hregular, h]
  simp only [hkind, decide_false]
  rfl

end Node

namespace Render

open Text

/-- A start tag is a tag, if no tag ends in its names. -/
theorem isTag_opening {tag : String} {properties : Fields} (htag : '>' ∉ tag.toList)
    (hproperties : ∀ property ∈ properties, '>' ∉ property.1.toList) :
    IsTag (opening tag properties).toList := by
  have hattributes := not_mem_attributes hproperties
  refine ⟨tag.toList ++
    (if attributes properties = "" then "" else " " ++ attributes properties).toList, ?_, ?_⟩
  · simp [opening]
  · rw [List.mem_append, not_or]
    refine ⟨htag, ?_⟩
    split <;> simp [hattributes]

/-- An end tag is a tag, if no tag ends in its name. -/
theorem isTag_endTag {tag : String} (htag : '>' ∉ tag.toList) :
    IsTag ("</" ++ tag ++ ">").toList :=
  ⟨'/' :: tag.toList, by simp, by simp [htag]⟩

/-- A comment is left out as a tag is, if no tag ends in it. -/
theorem isTag_comment {s : String} (hs : '>' ∉ s.toList) : IsTag ("<!--" ++ s ++ "-->").toList :=
  ⟨"!--".toList ++ s.toList ++ "--".toList, by simp, by simp [hs]⟩

/-- A document type declaration is a tag. -/
theorem isTag_doctype : IsTag "<!doctype html>".toList :=
  ⟨"!doctype html".toList, by decide, by decide⟩

mutual

/-- A tree has a text, and without the tags its HTML is the escaped text. -/
theorem withoutTags_written : ∀ n : Node, n.wellFormed = true → n.strippable = true →
    ∃ s, n.textOf = .ok (some s) ∧ ∀ rest,
      withoutTags ((written .html n).toList ++ rest) = (escape s).toList ++ withoutTags rest
  | .stray value, h, _ => by simp [Node.wellFormed] at h
  | .node head info children, h, hstrip => by
    obtain ⟨hregular, hlisted, hchildren⟩ := Node.wellFormed_node.mp h
    -- A node without children of its own has no text, and all of it is a tag.
    have htag {cs : String} (hkind : head.kind ≠ .text) (hnil : children = [])
        (hcs : IsTag cs.toList) : ∃ s, (Node.node head info children).textOf = .ok (some s) ∧
          ∀ rest, withoutTags (cs.toList ++ rest) = (escape s).toList ++ withoutTags rest := by
      refine ⟨"", Node.textOf_of_textsOf hregular hkind info (by rw [hnil]; rfl), fun rest => ?_⟩
      rw [withoutTags_of_isTag hcs]
      rfl
    cases head with
    | irregular traits => simp [Head.isRegular] at hregular
    | root =>
      obtain ⟨s, hs, hwritten⟩ := withoutTags_writtenAll children hchildren hstrip
      exact ⟨s, Node.textOf_of_textsOf hregular (by decide) info hs, hwritten⟩
    | element tag properties =>
      simp only [Node.strippable, Bool.and_eq_true, List.all_eq_true, Bool.not_eq_true',
        List.contains_eq_mem, decide_eq_false_iff_not] at hstrip
      obtain ⟨⟨hname, hnames⟩, hstripped⟩ := hstrip
      obtain ⟨s, hs, hwritten⟩ := withoutTags_writtenAll children hchildren hstripped
      refine ⟨s, Node.textOf_of_textsOf hregular (by simp [Head.kind]) info hs, fun rest => ?_⟩
      rw [written, String.toList_append, List.append_assoc,
        withoutTags_of_isTag (isTag_opening hname hnames)]
      split
      · next hvoid =>
        -- An element without an end tag is empty here, and so is its text.
        rw [Bool.and_eq_true, List.isEmpty_iff] at hvoid
        rw [hvoid.2] at hs
        obtain rfl : "" = s := by simpa [Node.textsOf] using hs
        rfl
      · rw [String.toList_append, List.append_assoc, hwritten,
          withoutTags_of_isTag (isTag_endTag hname)]
    | text s =>
      refine ⟨s, rfl, fun rest => ?_⟩
      exact withoutTags_append (not_mem_escape s) rest
    | comment s =>
      have hleaf : ¬ (Kinds.single .comment).within .containers = true := by decide
      have hs : '>' ∉ s.toList := by simpa [Node.strippable] using hstrip
      exact htag (by simp [Head.kind]) (hlisted.resolve_left hleaf) (isTag_comment hs)
    | doctype => exact htag (by decide) (hlisted.resolve_left (by decide)) isTag_doctype
    | other type listed =>
      simp only [Node.strippable, Bool.and_eq_true] at hstrip
      obtain ⟨s, hs, hwritten⟩ := withoutTags_writtenAll children hchildren hstrip.2
      refine ⟨s, Node.textOf_of_textsOf hregular (by simp [Head.kind]) info hs, fun rest => ?_⟩
      have hraw : rawText (info.extra.get? "value") = "" := by
        have hvalue := hstrip.1
        cases hget : info.extra.get? "value" with
        | none => rfl
        | some value =>
          rw [hget] at hvalue
          cases value <;> simp_all [Value.isStr, rawText]
      rw [written, hraw, String.empty_append]
      exact hwritten rest

/-- A list of trees has a text, and without the tags its HTML is the escaped text. -/
theorem withoutTags_writtenAll : ∀ ns : List Node, Node.allWellFormed ns = true →
    Node.allStrippable ns = true → ∃ s, Node.textsOf ns = .ok (some s) ∧ ∀ rest,
      withoutTags ((writtenAll .html ns).toList ++ rest) = (escape s).toList ++ withoutTags rest
  | [], _, _ => ⟨"", rfl, fun rest => rfl⟩
  | n :: ns, h, hstrip => by
    rw [Node.allWellFormed, Bool.and_eq_true] at h
    rw [Node.allStrippable, Bool.and_eq_true] at hstrip
    obtain ⟨s, hs, hwritten⟩ := withoutTags_written n h.1 hstrip.1
    obtain ⟨t, ht, hothers⟩ := withoutTags_writtenAll ns h.2 hstrip.2
    refine ⟨s ++ t, ?_, fun rest => ?_⟩
    · rw [Node.textsOf, hs, ht]
      rfl
    · have hescape : (escape (s ++ t)).toList = (escape s).toList ++ (escape t).toList := by
        simp [escape]
      rw [writtenAll, String.toList_append, List.append_assoc, hwritten, hothers, hescape,
        List.append_assoc]

end

end Render

/-! ## Main result -/

/-- A well-formed tree in whose HTML tags can be told from text has a plain text, and it is the HTML
without the tags, with the references read. -/
theorem textValue_of_toHtml {n : Node} (hn : n.wellFormed = true) (h : n.strippable = true) :
    ∃ html, toHtml [n] = .ok html ∧ n.textValue =
      .ok (.str (String.ofList (Text.readReferences (Text.withoutTags html.toList)))) := by
  obtain ⟨s, hs, hwritten⟩ := Render.withoutTags_written n hn h
  have hhtml : toHtml [n] = .ok (Render.written .html n) := by
    have hlist : Node.allWellFormed [n] = true := by simp [Node.allWellFormed, hn]
    rw [toHtml, Render.render_of_allWellFormed .html hlist, Render.writtenAll, Render.writtenAll,
      String.append_empty]
  have htext : n.textValue = .ok (.str s) := by
    unfold Node.textValue
    rw [hs]
    rfl
  have hleft : Text.withoutTags (Render.written .html n).toList = (Text.escape s).toList := by
    have hend : Text.withoutTags [] = [] := by rw [Text.withoutTags]
    simpa [hend] using hwritten []
  refine ⟨Render.written .html n, hhtml, ?_⟩
  rw [htext, hleft, Text.readReferences_escape, String.ofList_toList]

/-- A paragraph with signs of the markup in an attribute and in its texts, a line break, a comment with
an opening bracket, and a node of another type with a number as its value. -/
def signsEverywhere : Node :=
  Node.root [Node.element "p" [("className", .arr [.str "a>b", .int 1]), ("hidden", .bool true)]
    [Node.text "1 < 2 &", Node.text "lt; 3", Node.element "br" [] [], .node (.comment "<b") {} [],
      .node (.other "raw" false) ⟨.null, [("value", .int 2)]⟩ []]]

/-- Texts with signs of the markup in them are found again in the HTML. -/
theorem textValue_of_toHtml_signsEverywhere :
    signsEverywhere.wellFormed = true ∧ signsEverywhere.strippable = true ∧
      ∃ html, toHtml [signsEverywhere] = .ok html ∧ signsEverywhere.textValue =
        .ok (.str (String.ofList (Text.readReferences (Text.withoutTags html.toList)))) :=
  have hwellFormed : signsEverywhere.wellFormed = true := by decide
  have hstrippable : signsEverywhere.strippable = true := by decide
  ⟨hwellFormed, hstrippable, textValue_of_toHtml hwellFormed hstrippable⟩

end Transclude
