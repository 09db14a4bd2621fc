import Transclude.Proofs.Walk.Responsive
import Transclude.Proofs.Walk.Segment

/-!
# Reading a document of segments

A document of one text, in which segments are written, is processed segment by segment. The templates
are asked for first, then the links, each as it was written, and the answers come to stand where the
segments stood. `path_scripts_text` says so of the templates in a text, `path_ending_segments` of the
links among what the templates are expanded to, and `process_document` of the whole document.
-/

namespace Transclude

variable {σ : Type}

/-! ## Fit and plain answers -/

namespace Context

variable {ctx : Context σ}

/-- The texts in the answers to template calls are plain. -/
def AnswersPlainly (ctx : Context σ) : Prop := ∀ call world nodes next,
  ctx.answer? (.template call) world = some (nodes, next) → Segment.PlainNodes nodes

/-- The answers of a talk are fit if all answers are. -/
theorem Answering.fit (hctx : ctx.Answering) {world after : σ} {talk : List (Call × List Node)}
    (h : ctx.Hears world talk after) : ∀ x ∈ talk, Fit x.1 x.2 := by
  intro x hx
  obtain ⟨during, next, hanswer⟩ := h.exists_answer? x hx
  obtain ⟨nodes, next', hanswer', hfit⟩ := hctx x.1 during
  rw [hanswer, Option.some.injEq, Prod.mk.injEq] at hanswer'
  rw [hanswer'.1]
  exact hfit

end Context

/-! ## Expanding a text -/

namespace Node

open Segment (fillSigns)

/-- On a path through the script of a walk through a text, the templates among its parts are asked
for, and no messages are made. What comes of the text has the signs of its parts. It is fit and has no
empty texts, but for what is in an answer. -/
theorem path_scripts_text {tags : Tags} {s : String} (hne : s ≠ "") {info : Info}
    {events : List Event} {ms : List Node}
    (h : (scripts tags [.node (.text s) info []]).Path events ms) :
    (Event.talk events).map Prod.fst =
        ((Template.partsFrom 0 s.toList).filterMap Sum.getRight?).map .template ∧
      events.filterMap Event.note? = [] ∧
      signs ms = fillSigns (Template.partsFrom 0 s.toList) ((Event.talk events).map Prod.snd) ∧
      ∀ m ∈ ms, (m.isFit = true ∧ m.text? ≠ some "") ∨
        ∃ answer ∈ (Event.talk events).map Prod.snd, m ∈ answer := by
  have htext : (Node.node (.text s) info []).text? = some s := text?_of_isRegular rfl info []
  have hscan : (Node.node (.text s) info []).templates = Template.scan s := by
    rw [templates, htext]
  rw [← Template.parts_pieces]
  by_cases ht : (Node.node (.text s) info []).templates = []
  · -- The text stays as it is.
    obtain ⟨es, fs, m, others, rfl, hfirst, hothers, rfl⟩ := path_scripts_of_no_templates ht h
    rw [script, admits_of_text? htext] at hfirst
    obtain ⟨rfl, rfl⟩ := Script.path_done hfirst
    obtain ⟨rfl, rfl⟩ := Script.path_done hothers
    rw [← hscan, ht, Template.pieces_nil hne]
    refine ⟨by simp [Template.Piece.parts, Event.talk], rfl, ?_, ?_⟩
    · rw [signs_cons, signsOf_of_text? htext, List.flatMap_cons, Template.Piece.parts,
        Segment.fillSigns_chars]
      rfl
    · intro m hm
      obtain rfl := List.mem_singleton.mp hm
      exact .inl ⟨isFit_of_isRegular rfl (by simp), by simpa [htext] using hne⟩
  · -- The text is expanded piece by piece.
    obtain ⟨es, fs, nodes, others, rfl, hsteps, hothers, rfl⟩ := path_scripts_of_templates ht h
    obtain ⟨rfl, rfl⟩ := Script.path_done hothers
    obtain ⟨hcalls, hnotes, rfl, -⟩ := Script.path_ofSteps hsteps
    have hpieces : (Node.node (.text s) info []).templateSteps =
        (Template.pieces s (Template.scan s)).map Step.ofPiece := by
      rw [templateSteps, htext, hscan, Option.getD_some]
    rw [List.append_nil, List.append_nil]
    rw [hpieces] at hcalls ⊢
    refine ⟨hcalls.trans (Segment.calls_ofPiece _), hnotes.trans (notes_templateSteps _),
      Segment.signs_outputs_ofPiece _ _, fun m hm => ?_⟩
    rcases Step.mem_outputs hm with ⟨step, hstep, hkept⟩ | hanswer
    · obtain ⟨piece, hpiece, rfl⟩ := List.mem_map.mp hstep
      cases piece with
      | literal t =>
        obtain rfl := List.mem_singleton.mp hkept
        have hempty := Template.ne_empty_of_literal_mem_pieces hpiece
        exact .inl ⟨isFit_text t, by simpa [text?_text] using hempty⟩
      | call call => simp [Step.ofPiece, Step.kept] at hkept
    · exact .inr hanswer

end Node

/-! ## Resolving the links of segments -/

namespace Segment

/-- Where the links of segments are found, their references are those that the segments stand for. -/
theorem references_of_fates {segments : List Segment} (hvalid : ∀ s ∈ segments, s.Valid)
    {fates : List Link.Fate} (hfates : fates.map Link.Fate.bareTexts = segments.filterMap fate?)
    {references : List LinkReference}
    (hreferences : List.Forall₂ (fun inside reference =>
      LinkReference.ofNodes inside = .ok (some reference)) (fates.filterMap Link.Fate.inside?)
      references) :
    references = segments.filterMap reference? := by
  induction segments generalizing fates references with
  | nil =>
    obtain rfl : fates = [] := by simpa using hfates
    cases hreferences
    rfl
  | cons segment rest ih =>
    obtain ⟨hsegment, hrest⟩ := List.forall_mem_cons.mp hvalid
    cases segment with
    | literal text => exact ih hrest hfates hreferences
    | template name parameters => exact ih hrest hfates hreferences
    | link file id display =>
      obtain ⟨fate, others, rfl, hfate, hothers⟩ := List.map_eq_cons_iff.mp hfates
      -- There is one text inside, as it was written.
      cases fate with
      | invalid inside => simp [Link.Fate.bareTexts] at hfate
      | unclosed => simp [Link.Fate.bareTexts] at hfate
      | link inside =>
        obtain ⟨n, rfl, hn⟩ := List.map_eq_singleton_iff.mp (Link.Fate.link.inj hfate)
        have htext : n.text? = some (String.ofList (linkChars file id display)) := by
          rw [← Node.text?_bareText, hn, Node.text?_text]
        cases hreferences with
        | cons href hreferences =>
          rw [Link.ofNodes_of_text? htext, String.toList_ofList, ofText?_linkChars hsegment] at href
          rw [ih hrest hothers hreferences, List.filterMap_cons]
          simpa [reference?] using href.symm

/-- Where the links of segments are found, there is no message about them. -/
theorem message?_of_fates {segments : List Segment} {fates : List Link.Fate}
    (hfates : fates.map Link.Fate.bareTexts = segments.filterMap fate?) (path : List Value) :
    fates.filterMap (Link.Fate.message? path) = [] := by
  refine List.filterMap_eq_nil_iff.mpr fun fate hfate => ?_
  have hmem : fate.bareTexts ∈ segments.filterMap fate? :=
    hfates ▸ List.mem_map.mpr ⟨fate, hfate, rfl⟩
  obtain ⟨segment, -, hlink⟩ := List.mem_filterMap.mp hmem
  cases segment with
  | literal text => simp [fate?] at hlink
  | template name parameters => simp [fate?] at hlink
  | link file id display =>
    cases fate with
    | link inside => rfl
    | invalid inside => simp [fate?, Link.Fate.bareTexts] at hlink
    | unclosed => simp [fate?, Link.Fate.bareTexts] at hlink

end Segment

/-- Steps that only make proper messages have no notes if no messages come of them. -/
theorem Step.notes_eq_nil {steps : List Step} (hsure : ∀ step ∈ steps, step.isSure = true)
    {path : List Value} (h : steps.filterMap (Step.message? path) = []) : Step.notes steps = [] := by
  refine List.filterMap_eq_nil_iff.mpr fun step hstep => ?_
  have hnone := List.filterMap_eq_nil_iff.mp h step hstep
  cases step with
  | tell note nodes =>
    obtain ⟨hproper, -⟩ : note.isProper = true ∧ note.level = .debug := by
      simpa [Step.isSure] using hsure _ hstep
    have hno : note.message? path = none := hnone
    rw [← Note.isSome_message? note path, hno] at hproper
    simp at hproper
  | _ => rfl

namespace Node

open Segment

/-- On a path through the end of a container whose children have come of segments, the links of the
segments are asked for, and no messages are made. The container is given the segments with the answers
in place of the templates and the links, but for what texts carry. -/
theorem path_ending_segments {segments : List Segment} (hvalid : ∀ s ∈ segments, s.Valid)
    {templates : List (List Node)} (hplain : ∀ answer ∈ templates, PlainNodes answer)
    {ns : List Node} (hsigns : signs ns = fillSigns (segments.flatMap parts) templates)
    (hne : ∀ n ∈ ns, n.text? ≠ some "") (hfit : ∀ n ∈ ns, n.isFit = true)
    {events : List Event} {given : List Node} (h : (ending ns).Path events given) :
    (Event.talk events).map Prod.fst = (segments.filterMap reference?).map .link ∧
      events.filterMap Event.note? = [] ∧
      given.map bareText =
        (mergeText (fill segments templates ((Event.talk events).map Prod.snd))).map bareText := by
  obtain ⟨hcalls, -, hnotes, rfl⟩ := path_ending h
  have hresolved := resolvedBy_linkSteps hfit
  have hfates : (Link.fates (Link.items (mergeText ns))).map Link.Fate.bareTexts =
      segments.filterMap fate? := by
    rw [← Link.fates_map_bareText, Link.items_mergeText hne, hsigns, fates_segments hvalid hplain]
  obtain ⟨references, hreferences, hlinks⟩ := hresolved.calls
  have hmessages := (hresolved.messages []).trans (message?_of_fates hfates [])
  refine ⟨?_, hnotes.trans (Step.notes_eq_nil hresolved.sure hmessages), ?_⟩
  · rw [hcalls, hlinks, references_of_fates hvalid hfates hreferences]
  · rw [hresolved.outputs, Link.map_bareText_splice hne, hsigns, mended_segments hvalid hplain,
      map_bareText_mergeText]

end Node

/-! ## Documents of segments -/

namespace Segment

/-- A document of one text, in which segments are written. -/
def document (info textInfo : Info) (segments : List Segment) : Node :=
  .node .root info [.node (.text (spell segments)) textInfo []]

/-- The calls for segments: those for the templates, and then those for the links. -/
def calls (segments : List Segment) : List Call :=
  (segments.filterMap templateCall?).map .template ++ (segments.filterMap reference?).map .link

/-- A document of segments is well formed. -/
theorem wellFormed_document (info textInfo : Info) (segments : List Segment) :
    (document info textInfo segments).wellFormed = true := by
  have htext : (Node.node (.text (spell segments)) textInfo []).wellFormed = true :=
    Node.wellFormed_node.mpr ⟨rfl, .inr rfl, by rw [Node.allWellFormed]⟩
  exact Node.wellFormed_node.mpr ⟨rfl, .inl rfl, by simp [Node.allWellFormed, htext]⟩

/-- Something is written for a valid segment. -/
theorem chars_ne_nil {segment : Segment} (h : segment.Valid) : segment.chars ≠ [] := by
  cases segment with
  | literal text => simpa [chars] using h.1
  | link file id display => simp [chars]
  | template name parameters => simp [chars]

/-- The text of valid segments is not empty. -/
theorem spell_ne_empty {segments : List Segment} (hne : segments ≠ [])
    (hvalid : ∀ s ∈ segments, s.Valid) : spell segments ≠ "" := by
  obtain ⟨segment, rest, rfl⟩ := List.exists_cons_of_ne_nil hne
  intro h
  have hnil : (segment :: rest).flatMap chars = [] := by simpa [spell] using h
  exact chars_ne_nil (hvalid segment (by simp)) (List.flatMap_eq_nil_iff.mp hnil segment (by simp))

end Segment

namespace Node

open Segment

/-- On a path through the script of a walk through a document of segments, their calls are made, and
no messages, if what is answered is fit and the texts in answers to template calls are plain. The
document becomes the segments with the answers in their places, but for what texts carry. -/
theorem path_document {segments : List Segment} (hne : segments ≠ [])
    (hvalid : ∀ s ∈ segments, s.Valid) {info textInfo : Info} {tags : Tags} {events : List Event}
    {m : Node} (h : ((document info textInfo segments).script tags).Path events m)
    (hfit : ∀ x ∈ Event.talk events, Fit x.1 x.2)
    (hplain : ∀ call nodes, (.template call, nodes) ∈ Event.talk events → PlainNodes nodes) :
    (Event.talk events).map Prod.fst = calls segments ∧ events.filterMap Event.note? = [] ∧
      ∃ templates links given, (Event.talk events).map Prod.snd = templates ++ links ∧
        templates.length = (segments.filterMap templateCall?).length ∧
        links.length = (segments.filterMap reference?).length ∧ m = .node .root info given ∧
        given.map bareText = (mergeText (fill segments templates links)).map bareText := by
  obtain ⟨es, fs, spliced, given, rfl, hchildren, hend, rfl⟩ := path_script_of_admits rfl h
  rw [Event.talk_map_under, Event.talk_append] at hfit hplain ⊢
  -- First the templates are expanded.
  obtain ⟨hcalls, hnotes, hsigns, hkept⟩ := path_scripts_text (spell_ne_empty hne hvalid) hchildren
  rw [spell, String.toList_ofList, partsFrom_segments hvalid] at hcalls hsigns
  rw [filterMap_getRight?_parts] at hcalls
  have hplain' : ∀ answer ∈ (Event.talk es).map Prod.snd, PlainNodes answer := by
    intro answer hanswer
    obtain ⟨⟨call, nodes⟩, hx, rfl⟩ := List.mem_map.mp hanswer
    have hcall : call ∈ (Event.talk es).map Prod.fst := List.mem_map.mpr ⟨_, hx, rfl⟩
    rw [hcalls] at hcall
    obtain ⟨template, -, rfl⟩ := List.mem_map.mp hcall
    exact hplain template nodes (List.mem_append_left _ hx)
  have hspliced : ∀ n ∈ spliced, n.isFit = true ∧ n.text? ≠ some "" := by
    intro n hn
    rcases hkept n hn with hown | ⟨answer, hanswer, hmem⟩
    · exact hown
    · obtain ⟨x, hx, rfl⟩ := List.mem_map.mp hanswer
      refine ⟨hfit x (List.mem_append_left _ hx) n hmem, fun hempty => ?_⟩
      exact (hplain' x.2 hanswer n hmem "" hempty).1 rfl
  -- Then the links are resolved.
  obtain ⟨hlinks, hnotes', hgiven⟩ := path_ending_segments hvalid hplain' hsigns
    (fun n hn => (hspliced n hn).2) (fun n hn => (hspliced n hn).1) hend
  refine ⟨?_, ?_, (Event.talk es).map Prod.snd, (Event.talk fs).map Prod.snd, given, ?_, ?_, ?_, rfl,
    hgiven⟩
  · rw [List.map_append, hcalls, hlinks, calls]
  · rw [Event.filterMap_note?_map_under, List.filterMap_append, hnotes, hnotes', List.append_nil]
  · rw [List.map_append]
  · simpa using congrArg List.length hcalls
  · simpa using congrArg List.length hlinks

end Node

namespace Context

open Node Segment

variable {ctx : Context σ}

/-- A context whose resolvers answer with the name of the file of a link, and with the same nodes for
every template. -/
def stamp : Context Unit where
  link := echo.link
  template := .function fun _ world =>
    { outcome := .ok (.list [Node.text "t", .element "b" [] [Node.text "[[x]] ::y::"]])
      world := world }

/-- The resolvers of `stamp` answer every call. -/
theorem answering_stamp : stamp.Answering := by
  intro call world
  cases call with
  | link reference => exact answering_echo (.link reference) world
  | template call =>
    refine ⟨_, world, rfl, fun n hn => isFit_of_wellFormed ?_⟩
    rcases List.mem_cons.mp hn with rfl | hn
    · exact wellFormed_text _
    · exact List.mem_singleton.mp hn ▸ by decide

/-- The resolvers of `stamp` say nothing. -/
theorem silent_stamp : stamp.Silent := by
  intro call world
  cases call <;> rfl

/-- The texts in the answers of `stamp` to template calls are plain. -/
theorem answersPlainly_stamp : stamp.AnswersPlainly := by
  intro call world nodes next h
  have hnodes : [Node.text "t", .element "b" [] [Node.text "[[x]] ::y::"]] = nodes :=
    congrArg Prod.fst (Option.some.inj h)
  subst hnodes
  intro n hn s hs
  rcases List.mem_cons.mp hn with rfl | hn
  · obtain rfl : "t" = s := Option.some.inj hs
    exact ⟨by decide, List.all_eq_true.mp (by decide)⟩
  · obtain rfl := List.mem_singleton.mp hn
    have hnone : (Node.element "b" [] [Node.text "[[x]] ::y::"]).text? = none := rfl
    rw [hnone] at hs
    cases hs

/-- Segments of all kinds, some of them side by side. -/
def sampleSegments : List Segment :=
  [.template "a" [.bare "b", .keyed "c" "d"], .template "e" [], .link "f" (some "g") (some "h|i"),
    .link "j" none none, .literal "k"]

/-- They can be told from each other. -/
theorem valid_sampleSegments : ∀ s ∈ sampleSegments, s.Valid := by
  simp only [sampleSegments, List.forall_mem_cons, List.not_mem_nil, false_implies, implies_true,
    and_true]
  refine ⟨⟨by decide, ⟨some "b|c=d", by decide⟩, by decide⟩,
    ⟨by decide, ⟨none, rfl⟩, by decide⟩, ⟨by decide, by decide, by decide⟩,
    ⟨by decide, by decide, by decide⟩, ⟨by decide, by decide⟩⟩

end Context

end Transclude
