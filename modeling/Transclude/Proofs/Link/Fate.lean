import Transclude.Proofs.Link.Cut
import Transclude.Proofs.Run.Steps
import Transclude.Proofs.Tree.Display

/-!
# The fate of an opening delimiter

Every opening delimiter has one of three fates, by what follows it: it starts a link, it starts what
is not a link, or it is not closed. `fates` reads them off the items one by one, and `splice` writes
the items out with answers in place of the links, both without groups. `resolvedBy_groups` says that
the steps for the groups of the items do just that.
-/

namespace Transclude

namespace Link

/-! ## What follows a delimiter -/

/-- The nodes up to the first delimiter. -/
def inside : List Item → List Node
  | .node n :: rest => n :: inside rest
  | _ => []

/-- The first delimiter. -/
def next? : List Item → Option Delimiter
  | [] => none
  | .node _ :: rest => next? rest
  | .delimiter d :: _ => some d

/-- Whether nodes between an opening and a closing delimiter make a link: the first is a text that
is not empty, has no line break, and does not begin with a number sign or a bar. -/
def beginsLink (nodes : List Node) : Bool :=
  match nodes.head?.bind Node.text? with
  | some s =>
    match s.toList with
    | [] => false
    | c :: cs => c != '#' && c != '|' && !(c :: cs).contains '\n'
  | none => false

/-- Whether the items after an opening delimiter make it the start of a link. -/
def startsLink (rest : List Item) : Bool := next? rest == some .stop && beginsLink (inside rest)

/-- What becomes of an opening delimiter. -/
inductive Fate where
  /-- It starts a link with given nodes inside. -/
  | link (inside : List Node)
  /-- It is closed, but what is inside makes no link. -/
  | invalid (inside : List Node)
  /-- It is not closed. -/
  | unclosed
deriving Repr

/-- The fate of an opening delimiter, by the items after it. -/
def fateOf (rest : List Item) : Fate :=
  if next? rest = some .stop then
    if beginsLink (inside rest) then .link (inside rest) else .invalid (inside rest)
  else .unclosed

/-- The fates of the opening delimiters among items, in order. -/
def fates : List Item → List Fate
  | [] => []
  | .delimiter .start :: rest => fateOf rest :: fates rest
  | _ :: rest => fates rest

namespace Fate

/-- What is inside of a link. -/
def inside? : Fate → Option (List Node)
  | .link inside => some inside
  | _ => none

/-- The message about a delimiter that starts no link. -/
def message? (path : List Value) : Fate → Option Message
  | .link _ => none
  | .invalid inside => some {
      text := "invalid link content"
      trace := Node.displayList inside
      calledFrom := "links/134"
      path := path }
  | .unclosed => some {
      text := "link not properly closed"
      trace := ""
      calledFrom := "links/131"
      path := path }

end Fate

/-- The nodes that items are written out as, with the answers in place of the links. Inside of a
link nothing is written. -/
def splice : (within : Bool) → List (List Node) → List Item → List Node
  | _, _, [] => []
  | true, answers, .node _ :: rest => splice true answers rest
  | true, answers, .delimiter _ :: rest => splice false answers rest
  | false, answers, .node n :: rest => n :: splice false answers rest
  | false, answers, .delimiter .stop :: rest =>
    Node.text Delimiter.stop.text :: splice false answers rest
  | false, answers, .delimiter .start :: rest =>
    if startsLink rest then answers.headD [] ++ splice true answers.tail rest
    else Node.text Delimiter.start.text :: splice false answers rest

/-! ## Nodes in front -/

section Front

variable (nodes : List Node) (items : List Item)

/-- Nodes in front are inside. -/
theorem inside_append : inside (nodes.map .node ++ items) = nodes ++ inside items := by
  induction nodes with
  | nil => rfl
  | cons n rest ih => simp [inside, ih]

/-- Nodes in front do not change the first delimiter. -/
theorem next?_append : next? (nodes.map .node ++ items) = next? items := by
  induction nodes with
  | nil => rfl
  | cons n rest ih => simpa [next?] using ih

/-- Nodes in front have no fates. -/
theorem fates_append : fates (nodes.map .node ++ items) = fates items := by
  induction nodes with
  | nil => rfl
  | cons n rest ih => simpa [fates] using ih

/-- Nodes in front are written out outside of a link. -/
theorem splice_append (answers : List (List Node)) :
    splice false answers (nodes.map .node ++ items) = nodes ++ splice false answers items := by
  induction nodes with
  | nil => rfl
  | cons n rest ih => simp [splice, ih]

/-- Nodes in front are not written out inside of a link. -/
theorem splice_within_append (answers : List (List Node)) :
    splice true answers (nodes.map .node ++ items) = splice true answers items := by
  induction nodes with
  | nil => rfl
  | cons n rest ih => simpa [splice] using ih

end Front

/-! ## Link or not -/

/-- Nodes of which the first is a text have the reference that this text makes. -/
theorem ofNodes_of_text? {first : Node} {s : String} (h : first.text? = some s)
    (others : List Node) :
    LinkReference.ofNodes (first :: others) = .ok (LinkReference.ofText? s.toList others) := by
  cases first with
  | stray value => simp [Node.text?] at h
  | node head info children => simp [LinkReference.ofNodes, Node.isText_of_text? h, h]

/-- What begins like a link is one: it has a reference. -/
theorem ofNodes_of_beginsLink {nodes : List Node} (h : beginsLink nodes = true) :
    ∃ first others s reference, nodes = first :: others ∧ first.text? = some s ∧
      '\n' ∉ s.toList ∧ LinkReference.ofText? s.toList others = some reference ∧
      LinkReference.ofNodes nodes = .ok (some reference) := by
  unfold beginsLink at h
  cases nodes with
  | nil => simp at h
  | cons first others =>
    cases hs : first.text? with
    | none => simp [hs] at h
    | some s =>
      cases hcs : s.toList with
      | nil => simp [hs, hcs] at h
      | cons c cs =>
        obtain ⟨⟨hmark, hbar⟩, hline⟩ :
            (c ≠ '#' ∧ c ≠ '|') ∧ '\n' ∉ c :: cs := by
          simpa [hs, hcs] using h
        -- The first character can stand in the name of a file, so the name is not empty.
        have hfile : LinkReference.isFileChar c = true := by
          have hc : c ≠ '\n' := by
            rintro rfl
            simp at hline
          simp [LinkReference.isFileChar, hmark, hbar, hc]
        obtain ⟨reference, href⟩ : ∃ reference,
            LinkReference.ofText? (c :: cs) others = some reference := by
          simp [LinkReference.ofText?, hfile]
        refine ⟨first, others, s, reference, rfl, hs, hcs ▸ hline, hcs ▸ href, ?_⟩
        rw [ofNodes_of_text? hs, hcs, href]

/-- A group is a link if it has both delimiters, and begins with a text on one line from which a
reference can be read. -/
theorem Group.reference?_eq_some {g : Group} {reference : LinkReference} :
    g.reference? = some reference ↔ (g.opened = true ∧ g.closed = true) ∧
      ∃ first others s, g.nodes = first :: others ∧ first.text? = some s ∧ '\n' ∉ s.toList ∧
        LinkReference.ofText? s.toList others = some reference := by
  rw [Group.reference?, ← Bool.and_eq_true]
  constructor
  · intro h
    split at h
    · next first others hclosed hnodes =>
      split at h
      · next s hs =>
        split at h
        · simp at h
        · next hline => exact ⟨hclosed, first, others, s, hnodes, hs, by simpa using hline, h⟩
      · simp at h
    · simp at h
  · rintro ⟨hclosed, first, others, s, hnodes, hs, hline, href⟩
    simp [hclosed, hnodes, hs, hline, href]

/-- What a reference displays is a new text and the nodes after the text that it is read from, or
only these. -/
theorem nodes_of_ofText?_eq_some {cs : List Char} {others : List Node} {reference : LinkReference}
    (h : LinkReference.ofText? cs others = some reference) :
    reference.nodes = others ∨ ∃ s, reference.nodes = Node.text s :: others := by
  unfold LinkReference.ofText? at h
  split at h
  · simp at h
  · obtain rfl := Option.some.inj h
    dsimp only
    split
    · exact .inr ⟨_, rfl⟩
    · exact .inl rfl

/-- A group that is a link begins like one. -/
theorem beginsLink_of_reference? {g : Group} {reference : LinkReference}
    (h : g.reference? = some reference) : beginsLink g.nodes = true := by
  obtain ⟨-, first, others, s, hnodes, hs, hline, href⟩ := Group.reference?_eq_some.mp h
  -- A reference has the name of a file, which is not empty.
  rw [LinkReference.ofText?] at href
  unfold beginsLink
  cases hcs : s.toList with
  | nil => simp [hcs] at href
  | cons c cs =>
    rw [hcs] at href hline
    by_cases hfile : LinkReference.isFileChar c = true
    · simp only [LinkReference.isFileChar, Bool.and_eq_true, bne_iff_ne] at hfile
      simpa [hnodes, hs, hcs, hfile.1.1, hfile.1.2] using hline
    · simp [hfile] at href

end Link

/-! ## The steps of groups -/

namespace Step

variable {g : Link.Group}

/-- The message that a step makes about a path. -/
def message? (path : List Value) (step : Step) : Option Message :=
  step.note?.bind fun note => note.message? path

/-- Whether a step comes to its end whenever the link resolver answers: it does not fail, asks for
no template, and has only a proper debug message. -/
def isSure : Step → Bool
  | .keep _ => true
  | .tell note _ => note.isProper && note.level == .debug
  | .ask (.link _) => true
  | .ask (.template _) => false
  | .fail _ => false

/-- A group that is not opened is kept. -/
theorem ofGroup_of_not_opened (h : g.opened = false) : ofGroup g = .keep g.restore := by
  simp [ofGroup, Link.Group.link, Link.Group.fault?, Link.Group.reference?, Context.groupNote, h]

/-- A group that is opened and not closed is kept, with a message. -/
theorem ofGroup_of_unclosed (hopened : g.opened = true) (hclosed : g.closed = false) :
    ∃ note, ofGroup g = .tell note g.restore ∧ (note.isProper && note.level == .debug) = true ∧
      ∀ path, note.message? path = Link.Fate.message? path .unclosed := by
  refine ⟨{
      level := .debug
      text := .str "link not properly closed"
      calledFrom := .str "links/131" }, ?_, rfl, fun path => rfl⟩
  simp [ofGroup, Link.Group.link, Link.Group.fault?, Link.Group.reference?, Context.groupNote,
    hopened, hclosed]

/-- A group of sound nodes has no fault. -/
theorem fault?_of_isSound (h : ∀ n ∈ g.nodes, n.isSound = true) : g.fault? = none := by
  unfold Link.Group.fault?
  split
  · next hnodes => exact absurd (h _ (hnodes ▸ List.mem_cons_self)) (Node.not_isSound_stray _)
  · next head info children others _ hnodes =>
    simp [Node.isSound_node.mp (h _ (hnodes ▸ List.mem_cons_self))]
  · rfl

/-- A group that is a link is asked for. -/
theorem ofGroup_of_link (hopened : g.opened = true) (hclosed : g.closed = true)
    (hsound : ∀ n ∈ g.nodes, n.isSound = true) (hlink : Link.beginsLink g.nodes = true) :
    ∃ reference, LinkReference.ofNodes g.nodes = .ok (some reference) ∧
      ofGroup g = .ask (.link reference) := by
  obtain ⟨first, others, s, reference, hnodes, htext, hline, href, hof⟩ :=
    Link.ofNodes_of_beginsLink hlink
  have hreference : g.reference? = some reference := Link.Group.reference?_eq_some.mpr
    ⟨⟨hopened, hclosed⟩, first, others, s, hnodes, htext, hline, href⟩
  refine ⟨reference, hof, ?_⟩
  simp only [ofGroup, Link.Group.link, fault?_of_isSound hsound, hreference]

/-- A group that is opened and closed and is no link is kept, with a message that shows it. -/
theorem ofGroup_of_invalid (hopened : g.opened = true) (hclosed : g.closed = true)
    (hsound : ∀ n ∈ g.nodes, n.isSound = true) (hshown : Node.allDisplayable g.nodes = true)
    (hlink : Link.beginsLink g.nodes = false) :
    ∃ note, ofGroup g = .tell note g.restore ∧ (note.isProper && note.level == .debug) = true ∧
      ∀ path, note.message? path = Link.Fate.message? path (.invalid g.nodes) := by
  have hreference : g.reference? = none := by
    cases hr : g.reference? with
    | none => rfl
    | some reference => simp [Link.beginsLink_of_reference? hr] at hlink
  refine ⟨{
      level := .debug
      text := .str "invalid link content"
      trace := .str (Node.displayList g.nodes)
      calledFrom := .str "links/134" }, ?_, rfl, fun path => rfl⟩
  simp only [ofGroup, Link.Group.link, fault?_of_isSound hsound, hreference, Context.groupNote,
    hopened, hclosed, Node.displayList?, hshown]
  rfl

end Step

/-! ## All groups -/

namespace Link

/-- Steps that do with items what the fates of their opening delimiters call for. -/
structure ResolvedBy (steps : List Step) (items : List Item) : Prop where
  /-- The steps come to their end if the link resolver answers. -/
  sure : ∀ step ∈ steps, step.isSure = true
  /-- The messages are those about the delimiters that start no link. -/
  messages : ∀ path, steps.filterMap (Step.message? path) =
    (fates items).filterMap (Fate.message? path)
  /-- Each link is asked for once. -/
  calls : ∃ references, List.Forall₂
    (fun inside reference => LinkReference.ofNodes inside = .ok (some reference))
    ((fates items).filterMap Fate.inside?) references ∧ Step.calls steps = references.map .link
  /-- The nodes are the items with the answers in place of the links. -/
  outputs : ∀ answers, Step.outputs steps answers = splice false answers items

namespace ResolvedBy

variable {steps : List Step} {items tail : List Item}

/-- Nothing is done with no items. -/
theorem nil : ResolvedBy [] [] where
  sure := by simp
  messages path := rfl
  calls := ⟨[], .nil, rfl⟩
  outputs answers := rfl

/-- Nodes are kept in front. -/
theorem keep {nodes : List Node} (h : ResolvedBy steps tail) (hfates : fates items = fates tail)
    (hsplice : ∀ answers, splice false answers items = nodes ++ splice false answers tail) :
    ResolvedBy (.keep nodes :: steps) items where
  sure := by simpa [Step.isSure] using h.sure
  messages path := by
    rw [hfates, ← h.messages path]
    rfl
  calls := by
    rw [hfates]
    exact h.calls
  outputs answers := by rw [hsplice, ← h.outputs, Step.outputs]

/-- Nodes are kept in front with a message. -/
theorem tell {nodes : List Node} {note : Note} {fate : Fate} (h : ResolvedBy steps tail)
    (hnote : (note.isProper && note.level == .debug) = true)
    (hmessage : ∀ path, note.message? path = fate.message? path) (hinside : fate.inside? = none)
    (hfates : fates items = fate :: fates tail)
    (hsplice : ∀ answers, splice false answers items = nodes ++ splice false answers tail) :
    ResolvedBy (.tell note nodes :: steps) items where
  sure := by simpa [Step.isSure, hnote] using h.sure
  messages path := by
    rw [hfates, List.filterMap_cons, List.filterMap_cons, ← h.messages path, ← hmessage path]
    rfl
  calls := by
    rw [hfates, List.filterMap_cons, hinside]
    exact h.calls
  outputs answers := by rw [hsplice, ← h.outputs, Step.outputs]

/-- A link is asked for in front. -/
theorem ask {nodes : List Node} {reference : LinkReference} (h : ResolvedBy steps tail)
    (href : LinkReference.ofNodes nodes = .ok (some reference))
    (hfates : fates items = .link nodes :: fates tail)
    (hsplice : ∀ answers, splice false answers items =
      answers.headD [] ++ splice false answers.tail tail) :
    ResolvedBy (.ask (.link reference) :: steps) items where
  sure := by simpa [Step.isSure] using h.sure
  messages path := by
    rw [hfates, List.filterMap_cons, List.filterMap_cons, ← h.messages path]
    rfl
  calls := by
    obtain ⟨references, hrefs, hcalls⟩ := h.calls
    refine ⟨reference :: references, ?_, ?_⟩
    · rw [hfates]
      exact .cons href hrefs
    · rw [List.map_cons, ← hcalls]
      rfl
  outputs answers := by rw [hsplice, ← h.outputs, Step.outputs]

end ResolvedBy

/-- The items of an open group. -/
def opening (opened : Bool) (nodes : List Node) : List Item :=
  (if opened then [.delimiter .start] else []) ++ nodes.map .node

section Groups

variable {g : Group} {steps : List Step} {items : List Item}

/-- The fates of the items of a group that is not opened are those of the items after it. -/
theorem fates_not_opened (nodes : List Node) : fates (opening false nodes ++ items) = fates items :=
  fates_append nodes items

/-- The opening delimiter of a group has its fate by the nodes of the group and what follows. -/
theorem fates_opened (nodes : List Node) :
    fates (opening true nodes ++ items) = fateOf (nodes.map .node ++ items) :: fates items := by
  rw [← fates_append nodes items]
  rfl

/-- The items of a group are written out as they are if the group is no link. -/
theorem splice_opening (opened : Bool) {nodes : List Node}
    (h : opened = true → startsLink (nodes.map .node ++ items) = false)
    (answers : List (List Node)) :
    splice false answers (opening opened nodes ++ items) =
      (if opened then [Node.text Delimiter.start.text] else []) ++ nodes ++
        splice false answers items := by
  unfold opening
  cases opened with
  | false => simp [splice_append]
  | true => simp [splice, h rfl, splice_append]

/-- A group that is not closed is done with by its step. -/
theorem ResolvedBy.unclosed (h : ResolvedBy steps items) (hclosed : g.closed = false)
    (hnext : next? items ≠ some .stop) :
    ResolvedBy (Step.ofGroup g :: steps) (opening g.opened g.nodes ++ items) := by
  have hstarts : startsLink (g.nodes.map .node ++ items) = false := by
    simp [startsLink, next?_append, hnext]
  have hsplice := splice_opening g.opened fun _ => hstarts
  have hrestore : g.restore = (if g.opened then [Node.text Delimiter.start.text] else []) ++
      g.nodes := by simp [Group.restore, hclosed]
  rw [← hrestore] at hsplice
  cases hopened : g.opened with
  | false =>
    rw [Step.ofGroup_of_not_opened hopened]
    rw [hopened] at hsplice
    exact h.keep (fates_not_opened g.nodes) hsplice
  | true =>
    obtain ⟨note, hstep, hnote, hmessage⟩ := Step.ofGroup_of_unclosed hopened hclosed
    have hfate : fateOf (g.nodes.map .node ++ items) = .unclosed := by
      simp [fateOf, next?_append, hnext]
    rw [hstep]
    rw [hopened] at hsplice
    exact h.tell hnote hmessage rfl (hfate ▸ fates_opened g.nodes) hsplice

/-- A group that is closed is done with by its step. -/
theorem ResolvedBy.closed (h : ResolvedBy steps items) (hclosed : g.closed = true)
    (hsound : ∀ n ∈ g.nodes, n.isSound = true) (hshown : Node.allDisplayable g.nodes = true) :
    ResolvedBy (Step.ofGroup g :: steps)
      (opening g.opened g.nodes ++ .delimiter .stop :: items) := by
  have hinside : inside (g.nodes.map .node ++ .delimiter .stop :: items) = g.nodes := by
    rw [inside_append]
    simp [inside]
  have hnext : next? (g.nodes.map .node ++ .delimiter .stop :: items) = some .stop := by
    rw [next?_append]
    rfl
  -- Without a link, the group and its delimiters are written out as they are.
  have hkept (hno : g.opened = true → beginsLink g.nodes = false) (answers : List (List Node)) :
      splice false answers (opening g.opened g.nodes ++ .delimiter .stop :: items) =
        g.restore ++ splice false answers items := by
    rw [splice_opening g.opened fun ho => by simp [startsLink, hinside, hnext, hno ho]]
    simp [Group.restore, hclosed, splice]
  cases hopened : g.opened with
  | false =>
    rw [Step.ofGroup_of_not_opened hopened]
    rw [hopened] at hkept
    exact h.keep (fates_not_opened g.nodes) (hkept (by simp))
  | true =>
    cases hlink : beginsLink g.nodes with
    | false =>
      obtain ⟨note, hstep, hnote, hmessage⟩ :=
        Step.ofGroup_of_invalid hopened hclosed hsound hshown hlink
      have hfate : fateOf (g.nodes.map .node ++ .delimiter .stop :: items) =
          .invalid g.nodes := by simp [fateOf, hnext, hinside, hlink]
      rw [hstep]
      rw [hopened] at hkept
      exact h.tell hnote hmessage rfl (hfate ▸ fates_opened g.nodes) (hkept fun _ => hlink)
    | true =>
      obtain ⟨reference, href, hstep⟩ := Step.ofGroup_of_link hopened hclosed hsound hlink
      have hfate : fateOf (g.nodes.map .node ++ .delimiter .stop :: items) = .link g.nodes := by
        simp [fateOf, hnext, hinside, hlink]
      rw [hstep]
      refine h.ask href (hfate ▸ fates_opened g.nodes) fun answers => ?_
      simp [opening, splice, startsLink, hnext, hinside, hlink, splice_within_append]

/-- The steps for groups of sound nodes that can be displayed do with the items what their fates
call for. -/
theorem resolvedBy_groupsFrom (pos start : Nat) (opened : Bool) (nodes : List Node)
    (hnodes : ∀ n ∈ nodes, n.isSound = true ∧ n.displayable = true)
    (hitems : ∀ n, .node n ∈ items → n.isSound = true ∧ n.displayable = true) :
    ResolvedBy ((groupsFrom pos start opened nodes items).map Step.ofGroup)
      (opening opened nodes ++ items) := by
  induction items generalizing pos start opened nodes with
  | nil =>
    exact ResolvedBy.nil.unclosed (g := ⟨start, pos, opened, false, nodes⟩) rfl (by simp [next?])
  | cons item rest ih =>
    have hrest : ∀ n, .node n ∈ rest → n.isSound = true ∧ n.displayable = true :=
      fun n hn => hitems n (by simp [hn])
    cases item with
    | node n =>
      -- The open group takes in the node.
      have hn := hitems n (by simp)
      have hfront : opening opened nodes ++ .node n :: rest =
          opening opened (nodes ++ [n]) ++ rest := by
        simp [opening]
      rw [groupsFrom, hfront]
      refine ih (pos + 1) start opened (nodes ++ [n]) (fun m hm => ?_) hrest
      rcases List.mem_append.mp hm with hm | hm
      · exact hnodes m hm
      · exact List.mem_singleton.mp hm ▸ hn
    | delimiter d =>
      cases d with
      | start =>
        -- The group ends without its own delimiter, and the next one is opened.
        have hafter := ih (pos + 1) (pos + 1) true [] (by simp) hrest
        exact hafter.unclosed (g := ⟨start, pos, opened, false, nodes⟩) rfl
          (by simp [opening, next?])
      | stop =>
        have hafter := ih (pos + 1) (pos + 1) false [] (by simp) hrest
        exact hafter.closed (g := ⟨start, pos, opened, true, nodes⟩) rfl
          (fun n hn => (hnodes n hn).1)
          (Node.allDisplayable_iff.mpr fun n hn => (hnodes n hn).2)

/-- The steps for the groups of items do with the items what their fates call for. -/
theorem resolvedBy_groups (hitems : ∀ n, .node n ∈ items → n.isSound = true ∧ n.displayable = true) :
    ResolvedBy ((groups items).map Step.ofGroup) items :=
  resolvedBy_groupsFrom 0 0 false [] (by simp) hitems

end Groups

end Link

end Transclude
