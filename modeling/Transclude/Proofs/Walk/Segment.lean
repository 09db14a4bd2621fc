import Transclude.Proofs.Link.Signs
import Transclude.Proofs.Run.Steps
import Transclude.Proofs.Template.Parts

/-!
# Segments

A document of one text can be written as a sequence of segments: literal text, links, and templates.
`Segment.chars` writes a segment, and `Segment.Valid` says which segments can be told from what is
around them when they are read. `partsFrom_segments` reads the templates of what was written, and
`fates_segments` and `mended_segments` the links, after the templates are expanded.
-/

namespace Transclude

/-- A segment of a document of one text. -/
inductive Segment where
  /-- Literal text. -/
  | literal (text : String)
  /-- A link to a file, perhaps to a place in it, and perhaps with a text to display. -/
  | link (file : String) (id : Option String) (display : Option String)
  /-- A template with parameters. -/
  | template (name : String) (parameters : List Parameter)

namespace Segment

/-! ## Writing segments -/

/-- What is written between the delimiters of a link. -/
def linkChars (file : String) (id display : Option String) : List Char :=
  file.toList ++ (id.elim [] fun i => '#' :: i.toList) ++ display.elim [] fun d => '|' :: d.toList

/-- What is written between the colons of a template. -/
def inner (name : String) (parameters : List Parameter) : Template.Inner where
  name := name.toList
  metadata := if parameters = [] then none else some (Parameter.spelling parameters)

/-- How a segment is written. -/
def chars : Segment → List Char
  | literal text => text.toList
  | link file id display => '[' :: '[' :: (linkChars file id display ++ [']', ']'])
  | template name parameters => ':' :: ':' :: ((inner name parameters).chars ++ [':', ':'])

/-- The text of a document of some segments. -/
def spell (segments : List Segment) : String := String.ofList (segments.flatMap chars)

/-- Whether none of some marks is among characters. -/
def Avoids (marks cs : List Char) : Prop := ∀ c ∈ cs, c ∉ marks

instance (marks cs : List Char) : Decidable (Avoids marks cs) :=
  decidable_of_iff ((cs.all fun c => !marks.contains c) = true) (by simp [Avoids])

/-- Whether a segment can be told from what is around it. -/
def Valid : Segment → Prop
  | literal text => text ≠ "" ∧ Avoids ['[', ']', ':'] text.toList
  | link file id display =>
    (file ≠ "" ∧ Avoids ['#', '|', '\n', '[', ']', ':'] file.toList) ∧
      (∀ i ∈ id, i ≠ "" ∧ Avoids ['|', '\n', '[', ']', ':'] i.toList) ∧
      ∀ d ∈ display, d ≠ "" ∧ Avoids ['\n', '[', ']', ':'] d.toList
  | template name parameters =>
    (name ≠ "" ∧ Avoids [':', '|', '\n'] name.toList) ∧
      (∃ metadata, Parameter.parse metadata = parameters) ∧
      ∀ p ∈ parameters, Avoids [':', '\n'] p.chars

/-! ## What segments stand for -/

/-- The call that a template stands for. -/
def templateCall? : Segment → Option TemplateCall
  | template name parameters => some ⟨name, parameters⟩
  | _ => none

/-- The reference that a link stands for. -/
def reference? : Segment → Option LinkReference
  | link file id display => some ⟨file, id, (display.map Node.text).toList⟩
  | _ => none

/-- The nodes that segments stand for, with answers in place of the templates and the links. -/
def fill : List Segment → (templates links : List (List Node)) → List Node
  | [], _, _ => []
  | literal text :: rest, templates, links => Node.text text :: fill rest templates links
  | link _ _ _ :: rest, templates, links => links.headD [] ++ fill rest templates links.tail
  | template _ _ :: rest, templates, links =>
    templates.headD [] ++ fill rest templates.tail links

/-- The parts of a segment as it is written. -/
def parts : Segment → List (Char ⊕ TemplateCall)
  | template name parameters => [.inr ⟨name, parameters⟩]
  | segment => segment.chars.map .inl

/-- The parts of a literal are its characters. -/
theorem parts_literal (text : String) : (literal text).parts = text.toList.map .inl := rfl

/-- The parts of a link are its characters. -/
theorem parts_link (file : String) (id display : Option String) :
    (link file id display).parts = (link file id display).chars.map .inl := rfl

/-! ## Valid segments -/

/-- Nothing in a valid link ends it or is read as another mark. -/
theorem avoids_linkChars {file : String} {id display : Option String}
    (h : (link file id display).Valid) :
    Avoids ['\n', '[', ']', ':'] (linkChars file id display) := by
  obtain ⟨⟨-, hfile⟩, hid, hdisplay⟩ := h
  intro c hc
  unfold linkChars at hc
  rw [List.mem_append, List.mem_append] at hc
  rcases hc with (hc | hc) | hc
  · have hfree := hfile c hc
    simp only [List.mem_cons, List.not_mem_nil, or_false, not_or] at hfree ⊢
    exact hfree.2.2
  · cases id with
    | none => simp at hc
    | some i =>
      rcases List.mem_cons.mp hc with rfl | hc
      · decide
      · have hfree := (hid i rfl).2 c hc
        simp only [List.mem_cons, List.not_mem_nil, or_false, not_or] at hfree ⊢
        exact hfree.2
  · cases display with
    | none => simp at hc
    | some d =>
      rcases List.mem_cons.mp hc with rfl | hc
      · decide
      · exact (hdisplay d rfl).2 c hc

/-- A valid literal is written without colons. -/
theorem no_colon_literal {text : String} (h : (literal text).Valid) :
    ':' ∉ (literal text).chars := by
  intro hc
  exact h.2 ':' hc (by simp)

/-- A valid link is written without colons. -/
theorem no_colon_link {file : String} {id display : Option String}
    (h : (link file id display).Valid) : ':' ∉ (link file id display).chars := by
  have hinner := avoids_linkChars h ':'
  simpa [chars] using hinner

/-- A valid literal has no part in a delimiter. -/
theorem plain_literal {text : String} (h : (literal text).Valid) :
    ∀ c ∈ text.toList, Link.isPlain c = true := by
  intro c hc
  have hfree := h.2 c hc
  simp only [List.mem_cons, not_or] at hfree
  simp [Link.isPlain, hfree.1, hfree.2.1]

/-- What is between the delimiters of a valid link has no part in a delimiter. -/
theorem plain_linkChars {file : String} {id display : Option String}
    (h : (link file id display).Valid) :
    ∀ c ∈ linkChars file id display, Link.isPlain c = true := by
  intro c hc
  have hfree := avoids_linkChars h c hc
  simp only [List.mem_cons, not_or] at hfree
  simp [Link.isPlain, hfree.2.1, hfree.2.2.1]

/-- There is something between the delimiters of a valid link. -/
theorem linkChars_ne_nil {file : String} {id display : Option String}
    (h : (link file id display).Valid) : linkChars file id display ≠ [] := by
  intro hnil
  simp only [linkChars, List.append_eq_nil_iff] at hnil
  exact h.1.1 (by simpa using hnil.1.1)

/-! ## Reading templates -/

/-- A valid template can be read as it is written, and stands for its call. -/
theorem legible_inner {name : String} {parameters : List Parameter}
    (h : (template name parameters).Valid) : (inner name parameters).Legible ∧
      ((inner name parameters).at 0).call = ⟨name, parameters⟩ := by
  obtain ⟨⟨hne, hname⟩, hparse, hparameters⟩ := h
  have hlegible (c : Char) (hc : c ∈ name.toList) : c ≠ ':' ∧ c ≠ '|' ∧ c ≠ '\n' := by
    simpa using hname c hc
  unfold inner
  rcases Parameter.exists_parse_eq_iff.mp hparse with rfl | hlist
  · refine ⟨⟨by simpa using hne, hlegible, by simp, by simp⟩, ?_⟩
    simp [Template.Inner.at, Template.Occurrence.call, Parameter.parse]
  · have hspelling := hlist.spelling_ne_empty
    have hagain := hlist.parse_spelling
    rw [if_neg hlist.ne_nil]
    refine ⟨⟨by simpa using hne, hlegible, by simpa using hspelling, ?_⟩, ?_⟩
    · rintro m ⟨⟩ c hc
      rcases Parameter.mem_spelling hc with rfl | ⟨p, hp, hcp⟩
      · decide
      · simpa using hparameters p hp c hcp
    · simpa [Template.Inner.at, Template.Occurrence.call] using hagain

/-- The parts of what is written are those of the segments. -/
theorem partsFrom_segments {segments : List Segment} (h : ∀ s ∈ segments, s.Valid) :
    Template.partsFrom 0 (segments.flatMap chars) = segments.flatMap parts := by
  induction segments with
  | nil => rfl
  | cons segment rest ih =>
    obtain ⟨hvalid, hrest⟩ := List.forall_mem_cons.mp h
    rw [List.flatMap_cons, List.flatMap_cons, ← ih hrest]
    cases segment with
    | literal text => exact Template.partsFrom_of_no_colon (no_colon_literal hvalid) _
    | link file id display => exact Template.partsFrom_of_no_colon (no_colon_link hvalid) _
    | template name parameters =>
      obtain ⟨hlegible, hcall⟩ := legible_inner hvalid
      have hread := Template.partsFrom_template hlegible (rest.flatMap chars)
      rw [hcall] at hread
      simpa [chars, parts] using hread

/-! ## Expanding templates -/

/-- The signs of parts, with answers in place of the templates. -/
def fillSigns : List (Char ⊕ TemplateCall) → List (List Node) → List (Char ⊕ Node)
  | [], _ => []
  | .inl c :: rest, answers => .inl c :: fillSigns rest answers
  | .inr _ :: rest, answers => Node.signs (answers.headD []) ++ fillSigns rest answers.tail

/-- Characters are their own signs. -/
theorem fillSigns_chars (cs : List Char) (rest : List (Char ⊕ TemplateCall))
    (answers : List (List Node)) :
    fillSigns (cs.map .inl ++ rest) answers = cs.map .inl ++ fillSigns rest answers := by
  induction cs with
  | nil => rfl
  | cons c cs ih =>
    rw [List.map_cons, List.cons_append, fillSigns, ih, List.map_cons, List.cons_append]

/-- There is no template among characters. -/
theorem filterMap_getRight?_chars (cs : List Char) :
    (cs.map .inl).filterMap (Sum.getRight? : Char ⊕ TemplateCall → Option TemplateCall) = [] := by
  simp

/-- The pieces of a text call for the templates among its parts. -/
theorem calls_ofPiece (pieces : List Template.Piece) :
    Step.calls (pieces.map Step.ofPiece) =
      ((pieces.flatMap Template.Piece.parts).filterMap Sum.getRight?).map .template := by
  induction pieces with
  | nil => rfl
  | cons piece rest ih =>
    cases piece with
    | literal text =>
      rw [List.flatMap_cons, Template.Piece.parts, List.filterMap_append, filterMap_getRight?_chars]
      exact ih
    | call call => exact congrArg (Call.template call :: ·) ih

/-- A text that is expanded has the signs of its parts. -/
theorem signs_outputs_ofPiece (pieces : List Template.Piece) (answers : List (List Node)) :
    Node.signs (Step.outputs (pieces.map Step.ofPiece) answers) =
      fillSigns (pieces.flatMap Template.Piece.parts) answers := by
  induction pieces generalizing answers with
  | nil => rfl
  | cons piece rest ih =>
    cases piece with
    | literal text =>
      rw [List.map_cons, Step.ofPiece, Step.outputs, List.singleton_append, Node.signs_cons, ih,
        Node.signsOf_of_text? (Node.text?_text text), List.flatMap_cons, Template.Piece.parts,
        fillSigns_chars]
    | call call =>
      rw [List.map_cons, Step.ofPiece, Step.outputs, Node.signs_append, ih]
      rfl

/-- The templates among the parts of segments are those that the segments stand for. -/
theorem filterMap_getRight?_parts (segments : List Segment) :
    (segments.flatMap parts).filterMap Sum.getRight? = segments.filterMap templateCall? := by
  induction segments with
  | nil => rfl
  | cons segment rest ih =>
    rw [List.flatMap_cons, List.filterMap_append, ih]
    cases segment with
    | literal text =>
      rw [parts_literal, filterMap_getRight?_chars]
      rfl
    | link file id display =>
      rw [parts_link, filterMap_getRight?_chars]
      rfl
    | template name parameters => rfl

/-! ## Reading links -/

/-- A part that is written after its mark is read, with what comes after it. -/
theorem optionalPart_of_mark {mark : Char} {belongs : Char → Bool} {cs rest : List Char}
    (hne : cs ≠ []) (hcs : ∀ c ∈ cs, belongs c = true)
    (hrest : ∀ c ∈ rest.head?, belongs c = false) :
    LinkReference.optionalPart mark belongs (mark :: cs ++ rest) = (some cs, rest) := by
  obtain ⟨htake, hdrop⟩ := Text.takeWhile_append_and_dropWhile hcs hrest
  rw [List.cons_append, LinkReference.optionalPart, htake, hdrop, if_pos ⟨rfl, hne⟩]

/-- There is no part without its mark. -/
theorem optionalPart_of_no_mark {mark : Char} {belongs : Char → Bool} {cs : List Char}
    (h : ∀ c ∈ cs.head?, c ≠ mark) :
    LinkReference.optionalPart mark belongs cs = (none, cs) := by
  cases cs with
  | nil => rfl
  | cons c rest => rw [LinkReference.optionalPart, if_neg fun hc => h c rfl hc.1]

/-- The text between the delimiters of a valid link makes its reference. -/
theorem ofText?_linkChars {file : String} {id display : Option String}
    (h : (link file id display).Valid) :
    LinkReference.ofText? (linkChars file id display) [] =
      some ⟨file, id, (display.map Node.text).toList⟩ := by
  obtain ⟨⟨hne, hfile⟩, hid, hdisplay⟩ := h
  -- The text to display is what is left, if there is one.
  let shown : List Char := display.elim [] fun d => '|' :: d.toList
  have hshown : ∀ c ∈ shown.head?, c = '|' := by
    cases display <;> simp [shown]
  have hlast : LinkReference.optionalPart '|' LinkReference.isDisplayChar shown =
      (display.map String.toList, []) := by
    cases display with
    | none => rfl
    | some d =>
      obtain ⟨hd, havoids⟩ := hdisplay d rfl
      have hchars : ∀ c ∈ d.toList, LinkReference.isDisplayChar c = true := fun c hc => by
        simpa [LinkReference.isDisplayChar] using fun hn => havoids c hc (by simp [hn])
      have hread : LinkReference.optionalPart '|' LinkReference.isDisplayChar
          ('|' :: d.toList ++ []) = (some d.toList, []) :=
        optionalPart_of_mark (by simpa using hd) hchars (by simp)
      simpa [shown] using hread
  -- Before it stands the id, if there is one, and the name of the file ends where that begins.
  let rest : List Char := (id.elim [] fun i => '#' :: i.toList) ++ shown
  have hrest : LinkReference.optionalPart '#' LinkReference.isIdChar rest =
      (id.map String.toList, shown) := by
    cases id with
    | none => exact optionalPart_of_no_mark fun c hc => by simp [hshown c hc]
    | some i =>
      obtain ⟨hi, havoids⟩ := hid i rfl
      refine optionalPart_of_mark (by simpa using hi) (fun c hc => ?_) fun c hc => ?_
      · have hfree := havoids c hc
        simp only [List.mem_cons, not_or] at hfree
        simp [LinkReference.isIdChar, hfree.1, hfree.2.1]
      · simp [LinkReference.isIdChar, hshown c hc]
  have hhead : ∀ c ∈ rest.head?, LinkReference.isFileChar c = false := by
    cases id with
    | none => exact fun c hc => by simp [LinkReference.isFileChar, hshown c hc]
    | some i => simp [rest, LinkReference.isFileChar]
  have hchars : linkChars file id display = file.toList ++ rest := by
    simp [linkChars, rest, shown]
  have hname : ∀ c ∈ file.toList, LinkReference.isFileChar c = true := by
    intro c hc
    have hfree := hfile c hc
    simp only [List.mem_cons, not_or] at hfree
    simp [LinkReference.isFileChar, hfree.1, hfree.2.1, hfree.2.2.1]
  obtain ⟨htake, hdrop⟩ := Text.takeWhile_append_and_dropWhile hname hhead
  rw [hchars, LinkReference.ofText?, htake, hdrop, if_neg (by simpa using hne), hrest]
  dsimp only
  rw [hlast]
  cases id <;> cases display <;> simp

/-- The text between the delimiters of a valid link begins one. -/
theorem beginsLink_linkChars {file : String} {id display : Option String}
    (h : (link file id display).Valid) :
    Link.beginsLink [Node.text (String.ofList (linkChars file id display))] = true := by
  have hline : '\n' ∉ linkChars file id display := fun hmem => avoids_linkChars h _ hmem (by simp)
  obtain ⟨⟨hne, hfile⟩, -, -⟩ := h
  cases hchars : file.toList with
  | nil => exact absurd (by simpa using hchars) hne
  | cons c cs =>
    have hfree := hfile c (by simp [hchars])
    simp only [List.mem_cons, not_or] at hfree
    have hall : linkChars file id display = c :: (cs ++ (id.elim [] fun i => '#' :: i.toList) ++
        display.elim [] fun d => '|' :: d.toList) := by
      simp [linkChars, hchars]
    rw [hall] at hline ⊢
    simpa [Link.beginsLink, Node.text?_text, hfree.1, hfree.2.1] using hline

/-- The fate of the delimiter that opens a link. -/
def fate? : Segment → Option Link.Fate
  | link file id display => some (.link [Node.text (String.ofList (linkChars file id display))])
  | _ => none

/-- Nodes whose texts are not empty and have no part in a delimiter. -/
def PlainNodes (ns : List Node) : Prop :=
  ∀ n ∈ ns, ∀ s, n.text? = some s → s ≠ "" ∧ ∀ c ∈ s.toList, Link.isPlain c = true

/-- The texts of the first of some answers are plain if those of all are, and so are those of the
others. -/
theorem plainNodes_headD_and_tail {answers : List (List Node)}
    (h : ∀ answer ∈ answers, PlainNodes answer) :
    PlainNodes (answers.headD []) ∧ ∀ answer ∈ answers.tail, PlainNodes answer := by
  cases answers with
  | nil => exact ⟨fun n hn => by simp at hn, by simp⟩
  | cons first others => exact List.forall_mem_cons.mp h

section Links

variable {segments : List Segment} {templates : List (List Node)}
  (hvalid : ∀ s ∈ segments, s.Valid) (hplain : ∀ answer ∈ templates, PlainNodes answer)

include hvalid hplain

/-- After the templates of segments are expanded, the opening delimiters are those of the links. -/
theorem fates_segments :
    Link.fates (Link.cutSigns (fillSigns (segments.flatMap parts) templates)) =
      segments.filterMap fate? := by
  induction segments generalizing templates with
  | nil => rfl
  | cons segment rest ih =>
    obtain ⟨hsegment, hrest⟩ := List.forall_mem_cons.mp hvalid
    rw [List.flatMap_cons]
    cases segment with
    | literal text =>
      rw [parts_literal, fillSigns_chars, Link.fates_of_plain _ (plain_literal hsegment),
        ih hrest hplain]
      rfl
    | link file id display =>
      -- The delimiters cut a link off from what is next to it.
      rw [parts_link, fillSigns_chars, chars, Link.cutSigns_link _ (plain_linkChars hsegment)
        (linkChars_ne_nil hsegment), Link.fates_of_link (beginsLink_linkChars hsegment),
        ih hrest hplain]
      rfl
    | template name parameters =>
      obtain ⟨hfirst, hothers⟩ := plainNodes_headD_and_tail hplain
      rw [parts, List.singleton_append, fillSigns, Link.fates_of_plain_nodes hfirst,
        ih hrest hothers]
      rfl

/-- After the templates of segments are expanded and the links are resolved, the segments are
filled. -/
theorem mended_segments (links : List (List Node)) :
    Link.mended (fillSigns (segments.flatMap parts) templates)
        (links.map (·.map Node.bareText)) =
      Node.mergeText ((fill segments templates links).map Node.bareText) := by
  induction segments generalizing templates links with
  | nil => rfl
  | cons segment rest ih =>
    obtain ⟨hsegment, hrest⟩ := List.forall_mem_cons.mp hvalid
    rw [List.flatMap_cons]
    cases segment with
    | literal text =>
      rw [parts_literal, fillSigns_chars, Link.mended_of_plain _ _ (plain_literal hsegment)
        (by simpa using hsegment.1), ih hrest hplain, String.ofList_toList, fill, List.map_cons,
        Node.mergeText_cons, Node.bareText_of_text? (Node.text?_text text)]
    | link file id display =>
      rw [parts_link, fillSigns_chars, chars, Link.mended, Link.cutSigns_link _
        (plain_linkChars hsegment) (linkChars_ne_nil hsegment),
        Link.splice_of_link (beginsLink_linkChars hsegment), Node.mergeText_append, fill,
        List.map_append, Node.mergeText_append, ← ih hrest hplain, Link.mended]
      cases links <;> rfl
    | template name parameters =>
      obtain ⟨hfirst, hothers⟩ := plainNodes_headD_and_tail hplain
      rw [parts, List.singleton_append, fillSigns, Link.mended_of_plain_nodes hfirst,
        ih hrest hothers, fill, List.map_append, Node.mergeText_append]

end Links

end Segment

end Transclude
