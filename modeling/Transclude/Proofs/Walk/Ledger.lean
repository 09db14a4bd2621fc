import Transclude.Proofs.Link.Portion
import Transclude.Proofs.Walk.Journal
import Transclude.Proofs.Walk.Responsive

/-!
# The ledger of a walk

A ledger says for every container that a walk goes into what each of its children has become, and
what became of these nodes when the links among them were resolved. `Ledger.Accounts` says that
nothing but text is lost, doubled or moved in this: a node that is no text is in one place afterwards,
among the children that the container is given or in the reference of one link. A walk that comes to
its end has such a ledger (`exists_ledger_of_path_script`), and so has every run that does
(`process_settles`).
-/

namespace Transclude

variable {σ : Type}

open Node Link

/-! ## What children become -/

/-- What a child of a container becomes before links are resolved. -/
inductive Block where
  /-- The child has no templates, and is a node still. -/
  | settled (n : Node)
  /-- The templates of the child are expanded, with some answers. -/
  | expanded (child : Node) (answers : List (List Node))

namespace Block

/-- The nodes that the child becomes. -/
def nodes : Block → List Node
  | settled n => [n]
  | expanded child answers => Step.outputs child.templateSteps answers

/-- The calls for the templates of the child, with the answers. -/
def talk : Block → List (Call × List Node)
  | settled _ => []
  | expanded child answers =>
    ((child.templates.map Template.Occurrence.call).map .template).zip answers

/-- The nodes that the child becomes, but for texts. Of the text around templates nothing is left. -/
def nonTexts : Block → List Node
  | settled n => Node.nonTexts [n]
  | expanded _ answers => Node.nonTexts answers.flatten

end Block

/-- Steps that keep nothing but texts give what is in the answers, but for texts. -/
theorem Step.nonTexts_outputs {steps : List Step} {answers : List (List Node)}
    (hkept : ∀ step ∈ steps, Node.nonTexts step.kept = [])
    (hlength : answers.length = (calls steps).length) :
    Node.nonTexts (outputs steps answers) = Node.nonTexts answers.flatten := by
  induction steps generalizing answers with
  | nil =>
    obtain rfl := List.length_eq_zero_iff.mp hlength
    rfl
  | cons step rest ih =>
    obtain ⟨hstep, hrest⟩ := List.forall_mem_cons.mp hkept
    cases step with
    | keep nodes =>
      have hnodes : Node.nonTexts nodes = [] := hstep
      rw [outputs, nonTexts_append, hnodes, ih hrest hlength, List.nil_append]
    | tell note nodes =>
      have hnodes : Node.nonTexts nodes = [] := hstep
      rw [outputs, nonTexts_append, hnodes, ih hrest hlength, List.nil_append]
    | fail fault => exact ih hrest hlength
    | ask call =>
      have hcalls : calls (.ask call :: rest) = call :: calls rest := rfl
      cases answers with
      | nil => simp [hcalls] at hlength
      | cons answer others =>
        have hothers : others.length = (calls rest).length := by simpa [hcalls] using hlength
        rw [outputs, nonTexts_append, List.tail_cons, ih hrest hothers, List.flatten_cons,
          nonTexts_append]
        rfl

/-- A text with templates becomes what is in the answers to them, but for texts. -/
theorem Block.nonTexts_nodes_expanded {child : Node} {answers : List (List Node)}
    (h : answers.length = child.templates.length) :
    Node.nonTexts (expanded child answers).nodes = (expanded child answers).nonTexts := by
  refine Step.nonTexts_outputs (fun step hstep => ?_) ?_
  · refine List.filter_eq_nil_iff.mpr fun n hn => ?_
    obtain ⟨s, rfl⟩ := text_of_kept_templateSteps step hstep n hn
    simp [isText_text]
  · rw [calls_templateSteps, List.length_map, List.length_map, h]

/-- The calls for the templates of a text, with the answers to them, are those of its block. -/
theorem Block.talk_expanded {child : Node} {talk : List (Call × List Node)}
    (h : talk.map Prod.fst = (child.templates.map Template.Occurrence.call).map .template) :
    (talk.map Prod.snd).length = child.templates.length ∧
      (expanded child (talk.map Prod.snd)).talk = talk := by
  constructor
  · have hlength := congrArg List.length h
    simpa using hlength
  · rw [Block.talk, ← h, List.zip_map', List.map_id']

/-! ## Ledgers -/

/-- How a container is settled. -/
structure Settlement where
  /-- What each of the children becomes, in order. -/
  blocks : List Block := []
  /-- What becomes of these nodes when links are resolved, part by part. -/
  portions : List Portion := []

namespace Settlement

/-- The children that the container is given. -/
def given (s : Settlement) : List Node := mergeText (s.portions.flatMap Portion.output)

/-- What becomes of a node: a container that a walk goes into has the children that it is given. -/
def settle (s : Settlement) (tags : Tags) : Node → Node
  | .stray value => .stray value
  | .node head info children =>
    if tags.admits (.node head info children) then .node head info s.given
    else .node head info children

/-- A node stays as it is if a walk does not go into it. -/
theorem settle_of_not_admits {tags : Tags} {n : Node} (h : tags.admits n = false) (s : Settlement) :
    s.settle tags n = n := by
  cases n with
  | stray value => rfl
  | node head info children =>
    rw [settle, h]
    rfl

end Settlement

/-- The settlements of the containers of a tree, by their places. -/
abbrev Ledger := Place → Settlement

namespace Ledger

/-- The calls of a task with their answers. -/
def talk (ledger : Ledger) : Task → List (Call × List Node)
  | .expand p i => ((ledger p).blocks[i]?).elim [] Block.talk
  | .resolve p => (ledger p).portions.filterMap Portion.exchange?

/-- Whether a ledger accounts for a container at a place. -/
structure Accounts (tags : Tags) (ledger : Ledger) (p : Place) (container : Node) : Prop where
  /-- Every child becomes something. -/
  length : (ledger p).blocks.length = container.children.length
  /-- A child without templates, such as every child that is no text node, is one node still, with the
  children that it is given if it is a container itself. -/
  settled : ∀ (i : Nat) (child : Node), container.children[i]? = some child → child.templates = [] →
    (ledger p).blocks[i]? = some (.settled ((ledger (p ++ [i])).settle tags child))
  /-- A text with templates becomes what these give with an answer to each. -/
  expanded : ∀ (i : Nat) (child : Node), container.children[i]? = some child → child.templates ≠ [] →
    ∃ answers : List (List Node), answers.length = child.templates.length ∧
      (ledger p).blocks[i]? = some (.expanded child answers)
  /-- What the children become, but for texts, stays or is taken by a link, each node once and in
  order. -/
  held : Node.nonTexts ((ledger p).portions.flatMap Portion.held) =
    (ledger p).blocks.flatMap Block.nonTexts
  /-- The container is given what stays and the answers to links, but for texts. -/
  output : Node.nonTexts (ledger p).given =
    Node.nonTexts ((ledger p).portions.flatMap Portion.output)
  /-- No two of the nodes that it is given are text nodes side by side. -/
  separate : Separate (ledger p).given

/-- What a ledger says about a child it says about the place in the child as well. -/
theorem Accounts.under {tags : Tags} {ledger below : Ledger} {i : Nat} {p : Place}
    {container : Node} (hbelow : ∀ q, ledger (i :: q) = below q)
    (h : Accounts tags below p container) : Accounts tags ledger (i :: p) container := by
  obtain ⟨hlength, hsettled, hexpanded, hheld, houtput, hseparate⟩ := h
  constructor
  case settled =>
    intro j child hchild ht
    rw [hbelow, List.cons_append, hbelow]
    exact hsettled j child hchild ht
  all_goals rw [hbelow]; assumption

end Ledger

/-! ## The rows of the children -/

/-- What a child becomes, and the ledger of what is below it. -/
abbrev Row := Block × Ledger

namespace Ledger

/-- The ledger of a container whose children have some rows. -/
def ofRows (rows : List Row) (portions : List Portion) : Ledger
  | [] => ⟨rows.map Prod.fst, portions⟩
  | i :: p => (rows[i]?).elim {} fun row => row.2 p

/-- The row of a child comes after those of the children in front of it. -/
theorem getElem?_front (front rows : List Row) (row : Row) :
    (front ++ row :: rows)[front.length]? = some row := by
  simp

/-- What is below a child is in its row. -/
theorem ofRows_cons {rows : List Row} {portions : List Portion} {i : Nat} {row : Row}
    (h : rows[i]? = some row) (p : Place) : ofRows rows portions (i :: p) = row.2 p := by
  rw [ofRows, h]
  rfl

/-- The calls of a task in a child are those of the task in its row. -/
theorem talk_ofRows_under {rows : List Row} {portions : List Portion} {i : Nat} {row : Row}
    (h : rows[i]? = some row) (task : Task) :
    talk (ofRows rows portions) (task.under i) = talk row.2 task := by
  cases task with
  | expand p j => rw [Task.under, talk, talk, ofRows_cons h]
  | resolve p => rw [Task.under, talk, talk, ofRows_cons h]

/-- The calls of the tasks in a child are those of the tasks in its row. -/
theorem flatMap_talk_under (front rows : List Row) (row : Row) (portions : List Portion)
    (plan : List Task) :
    (plan.map (Task.under front.length)).flatMap (talk (ofRows (front ++ row :: rows) portions)) =
      plan.flatMap (talk row.2) := by
  rw [List.flatMap_map]
  exact List.flatMap_congr fun task _ => talk_ofRows_under (getElem?_front front rows row) task

/-- The calls for the templates of a child are those of its block. -/
theorem talk_ofRows_expand {rows : List Row} {portions : List Portion} {i : Nat} {row : Row}
    (h : rows[i]? = some row) : talk (ofRows rows portions) (.expand [] i) = row.1.talk := by
  rw [talk, ofRows, List.getElem?_map, h]
  rfl

end Ledger

/-- Whether a row describes what becomes of a child. -/
structure Row.Describes (tags : Tags) (child : Node) (row : Row) : Prop where
  /-- A child without templates is one node still. -/
  settled : child.templates = [] → row.1 = .settled ((row.2 []).settle tags child)
  /-- A child with templates becomes what these give. -/
  expanded : child.templates ≠ [] →
    ∃ answers : List (List Node), answers.length = child.templates.length ∧
      row.1 = .expanded child answers
  /-- What is below the child is accounted for. -/
  below : ∀ p ∈ child.reached tags, ∃ container, at? p child = some container ∧
    Ledger.Accounts tags row.2 p container

/-- What a child that is described becomes, but for texts. -/
theorem Row.Describes.nonTexts_nodes {tags : Tags} {child : Node} {row : Row}
    (h : Row.Describes tags child row) : Node.nonTexts row.1.nodes = row.1.nonTexts := by
  by_cases ht : child.templates = []
  · rw [h.settled ht]
    rfl
  · obtain ⟨answers, hlength, heq⟩ := h.expanded ht
    rw [heq]
    exact Block.nonTexts_nodes_expanded hlength

section Rows

variable {tags : Tags} {ns : List Node} {rows : List Row}

/-- Each of the children has its row. -/
theorem exists_row (hrows : List.Forall₂ (Row.Describes tags) ns rows) {i : Nat} {child : Node}
    (hchild : ns[i]? = some child) : ∃ row, rows[i]? = some row ∧ Row.Describes tags child row := by
  obtain ⟨hi, rfl⟩ := List.getElem?_eq_some_iff.mp hchild
  have hi' : i < rows.length := hrows.length_eq ▸ hi
  exact ⟨rows[i], List.getElem?_eq_getElem hi', hrows.get hi hi'⟩

/-- What children become, but for texts. -/
theorem nonTexts_flatMap_rows (hrows : List.Forall₂ (Row.Describes tags) ns rows) :
    Node.nonTexts (rows.flatMap fun row => row.1.nodes) =
      (rows.map Prod.fst).flatMap Block.nonTexts := by
  induction hrows with
  | nil => rfl
  | cons hrow _ ih =>
    rw [List.flatMap_cons, nonTexts_append, hrow.nonTexts_nodes, ih, List.map_cons,
      List.flatMap_cons]

/-- A container is accounted for by the rows of its children and by portions that have the same nodes
but for texts. -/
theorem Ledger.accounts_ofRows (head : Head) (info : Info) {portions : List Portion}
    (hrows : List.Forall₂ (Row.Describes tags) ns rows)
    (hheld : Node.nonTexts (portions.flatMap Portion.held) =
      Node.nonTexts (rows.flatMap fun row => row.1.nodes))
    (hseparate : Separate (mergeText (portions.flatMap Portion.output))) :
    Accounts tags (ofRows rows portions) [] (.node head info ns) := by
  have hblock {i : Nat} {row : Row} (h : rows[i]? = some row) :
      (ofRows rows portions []).blocks[i]? = some row.1 := by
    rw [ofRows, List.getElem?_map, h]
    rfl
  constructor
  case length => exact (List.length_map _).trans hrows.length_eq.symm
  case settled =>
    intro i child hchild ht
    obtain ⟨row, hrow, hdescribes⟩ := exists_row hrows hchild
    rw [hblock hrow, hdescribes.settled ht, List.nil_append, ofRows_cons hrow]
  case expanded =>
    intro i child hchild ht
    obtain ⟨row, hrow, hdescribes⟩ := exists_row hrows hchild
    obtain ⟨answers, hlength, heq⟩ := hdescribes.expanded ht
    exact ⟨answers, hlength, by rw [hblock hrow, heq]⟩
  case held => exact hheld.trans (nonTexts_flatMap_rows hrows)
  case output => exact nonTexts_mergeText _
  case separate => exact hseparate

/-- All containers in a container that is accounted for are so if its children are described. -/
theorem Ledger.exists_accounts_ofRows {head : Head} {info : Info} {portions : List Portion}
    (hrows : List.Forall₂ (Row.Describes tags) ns rows)
    (htop : Accounts tags (ofRows rows portions) [] (.node head info ns)) :
    ∀ p ∈ (Node.node head info ns).reached tags, ∃ container,
      at? p (.node head info ns) = some container ∧
        Accounts tags (ofRows rows portions) p container := by
  intro p hp
  rcases (mem_reached.mp hp).2 with rfl | ⟨i, child, q, rfl, hchild, hq⟩
  · exact ⟨_, rfl, htop⟩
  · obtain ⟨row, hrow, hdescribes⟩ := exists_row hrows hchild
    obtain ⟨container, hat, haccounts⟩ := hdescribes.below q hq
    exact ⟨container, at?_cons.mpr ⟨child, hchild, hat⟩, haccounts.under (ofRows_cons hrow)⟩

end Rows

/-! ## Walks that come to their end -/

namespace Node

variable {tags : Tags} {events : List Event}

/-- When a container is ended, what its children have become is divided into portions. The links among
them are asked for, and what stays and the answers are merged, so that no two text nodes are
adjacent. -/
theorem exists_portions_of_path_ending {ns given : List Node} (h : (ending ns).Path events given) :
    ∃ portions : List Portion, Event.talk events = portions.filterMap Portion.exchange? ∧
      given = mergeText (portions.flatMap Portion.output) ∧ Separate given ∧
      nonTexts (portions.flatMap Portion.held) = nonTexts ns := by
  obtain ⟨output, hsteps, hmerge⟩ := exists_path_of_path_ending h
  obtain ⟨hcalls, -, rfl, hsure⟩ := Script.path_ofSteps hsteps
  refine ⟨Link.portions (groups (items (mergeText ns))) ((Event.talk events).map Prod.snd), ?_, ?_,
    separate_of_merge hmerge, ?_⟩
  · exact (filterMap_exchange?_portions (hcalls.trans (Step.calls_ofGroup hsure))).symm
  · rw [flatMap_output_portions hsure]
    exact Context.eq_of_merge_ok hmerge
  · rw [nonTexts_held_portions, nonTexts_groups]

mutual

/-- A walk through a well-formed tree that comes to its end has a ledger: this says what is asked and
answered and what the tree becomes, and accounts for all containers that the walk goes into. -/
theorem exists_ledger_of_path_script : ∀ {n : Node}, n.wellFormed = true → ∀ {events : List Event}
    {m : Node}, (n.script tags).Path events m →
    ∃ ledger : Ledger, m = (ledger []).settle tags n ∧
      Event.talk events = (n.tasks tags).flatMap (Ledger.talk ledger) ∧
      ∀ p ∈ n.reached tags, ∃ container, at? p n = some container ∧
        Ledger.Accounts tags ledger p container
  | .stray value, hn, _, _, _ => by simp [wellFormed] at hn
  | .node head info children, hn, events, m, h => by
    cases hadmits : tags.admits (.node head info children) with
    | false =>
      rw [script_of_not_admits hn hadmits] at h
      obtain ⟨rfl, rfl⟩ := Script.path_done h
      refine ⟨fun _ => {}, (Settlement.settle_of_not_admits hadmits _).symm, ?_, ?_⟩
      · rw [tasks, hadmits]
        rfl
      · rw [reached_of_not_admits hadmits]
        simp
    | true =>
      obtain ⟨-, -, hchildren⟩ := wellFormed_node.mp hn
      obtain ⟨es, fs, spliced, given, rfl, hfront, hend, rfl⟩ := path_script_of_admits hadmits h
      obtain ⟨rows, hrows, rfl, htalk⟩ := exists_rows_of_path_scripts hchildren hfront
      obtain ⟨portions, hexchanges, rfl, hseparate, hheld⟩ := exists_portions_of_path_ending hend
      -- The rows of the children and the portions at the end make up the ledger.
      have htop := Ledger.accounts_ofRows head info hrows hheld hseparate
      refine ⟨.ofRows rows portions, ?_, ?_, Ledger.exists_accounts_ofRows hrows htop⟩
      · rw [Settlement.settle, if_pos hadmits]
        rfl
      · rw [Event.talk_map_under, Event.talk_append, tasks, if_pos hadmits, List.flatMap_append,
          hexchanges, htalk [] portions]
        simp [Ledger.talk, Ledger.ofRows]

/-- A walk through well-formed children that comes to its end has a row for each of them. -/
theorem exists_rows_of_path_scripts : ∀ {ns : List Node}, allWellFormed ns = true →
    ∀ {events : List Event} {ms : List Node}, (scripts tags ns).Path events ms →
    ∃ rows : List Row, List.Forall₂ (Row.Describes tags) ns rows ∧
      ms = (rows.flatMap fun row => row.1.nodes) ∧
      ∀ (front : List Row) (portions : List Portion), Event.talk events =
        (tasksFrom tags front.length ns).flatMap (Ledger.talk (.ofRows (front ++ rows) portions))
  | [], _, events, ms, h => by
    rw [scripts] at h
    obtain ⟨rfl, rfl⟩ := Script.path_done h
    refine ⟨[], .nil, rfl, fun front portions => ?_⟩
    rw [tasksFrom]
    rfl
  | child :: rest, hns, events, ms, h => by
    rw [allWellFormed, Bool.and_eq_true] at hns
    by_cases ht : child.templates = []
    · obtain ⟨es, fs, m, others, rfl, hfirst, hothers, rfl⟩ := path_scripts_of_no_templates ht h
      obtain ⟨ledger, rfl, htalk, hbelow⟩ := exists_ledger_of_path_script hns.1 hfirst
      obtain ⟨rows, hrows, rfl, hmore⟩ := exists_rows_of_path_scripts hns.2 hothers
      -- The ledger of the child is a part of that of the container, below the index of the child.
      let row : Row := (.settled ((ledger []).settle tags child), ledger)
      refine ⟨row :: rows, .cons ⟨fun _ => rfl, fun hne => absurd ht hne, hbelow⟩ hrows, rfl,
        fun front portions => ?_⟩
      have hlater := hmore (front ++ [row]) portions
      rw [List.length_append, List.append_assoc] at hlater
      rw [Event.talk_append, htalk, hlater, tasksFrom_of_no_templates ht, List.flatMap_append,
        Ledger.flatMap_talk_under]
      rfl
    · obtain ⟨es, fs, nodes, others, rfl, hfirst, hothers, rfl⟩ := path_scripts_of_templates ht h
      obtain ⟨hcalls, -, rfl⟩ := path_templateSteps hfirst
      obtain ⟨rows, hrows, rfl, hmore⟩ := exists_rows_of_path_scripts hns.2 hothers
      obtain ⟨hlength, hblock⟩ := Block.talk_expanded hcalls
      -- A text has nothing below it.
      obtain ⟨s, hs⟩ := text?_of_templates ht
      have hbelow : child.reached tags = [] := reached_of_not_admits (admits_of_text? hs tags)
      let row : Row := (.expanded child ((Event.talk es).map Prod.snd), fun _ => {})
      refine ⟨row :: rows, .cons ⟨fun hnone => absurd hnone ht, fun _ => ⟨_, hlength, rfl⟩,
        by simp [hbelow]⟩ hrows, rfl, fun front portions => ?_⟩
      have hlater := hmore (front ++ [row]) portions
      rw [List.length_append, List.append_assoc] at hlater
      rw [Event.talk_append, hlater, tasksFrom_of_templates ht, List.flatMap_cons,
        Ledger.talk_ofRows_expand (Ledger.getElem?_front front rows row), hblock]
      rfl

end

end Node

/-! ## Runs -/

namespace Context

/-- No run loses, doubles or moves a node that is no text, and none leaves two texts side by side. It
comes to its end if the resolvers answer all calls that can be made with fit nodes, be they none, or
texts side by side. Whenever it comes to its end it has a ledger, whatever the resolvers answer: the tree
becomes what the ledger says, the calls are those of the tasks of the walk, answered as the ledger says,
and all containers that the walk goes into are accounted for. -/
theorem process_settles (ctx : Context σ) {t : Node} (ht : t.wellFormed = true) (st : State σ) :
    (ctx.Responsive → (ctx.process t st).fault = none) ∧
    ((ctx.process t st).fault = none → ∃ (ledger : Ledger) (world : σ),
      (ctx.process t st).value = (ledger []).settle ctx.excluded t ∧
      (let talk := (t.tasks ctx.excluded).flatMap (Ledger.talk ledger)
      (ctx.process t st).state.calls = st.calls ++ talk.map Prod.fst ∧
        ctx.Hears st.world talk world) ∧
      ∀ p ∈ t.reached ctx.excluded, ∃ container, at? p t = some container ∧
        Ledger.Accounts ctx.excluded ledger p container) := by
  constructor
  · intro hctx
    obtain ⟨events, m, world, hfollows, -⟩ :=
      exists_follows_of_responsive hctx ht (isRegular_of_mem_fresh st)
    rw [process_of_wellFormed ht, hfollows.visit]
  · intro hfault
    obtain ⟨events, left, world, hleads, -, hstate, hend⟩ := ctx.exists_events_of_process ht st
    obtain ⟨rfl, hplays⟩ := hend hfault
    obtain ⟨ledger, hvalue, htalk, haccounts⟩ :=
      exists_ledger_of_path_script ht (Script.leads_done_iff.mp hleads)
    refine ⟨ledger, world, hvalue, ⟨?_, ?_⟩, haccounts⟩
    · rw [hstate, ← htalk]
      rfl
    · rw [← htalk]
      exact hplays.hears

/-- Resolvers that answer with texts around an element for a link, and with nothing for a template. -/
def replacing : Context Unit where
  link := .function fun _ world =>
    { outcome := .ok (.list [.text "", .text "(", .element "q" [] [], .text ")"])
      world := world }
  template := .function fun _ world => { outcome := .ok (.list []), world := world }

/-- A link around a paragraph, which has a link around an element. -/
def linkAroundParagraph : Node :=
  .root [.text "::a:: [[f|", .element "p" [] [.text "[[g", .element "i" [] [], .text "]]"],
    .text "]] ::b::[["]

/-- The paragraph is taken by the link, and texts are merged around the element that is the answer. -/
theorem process_settles_linkAroundParagraph :
    linkAroundParagraph.wellFormed = true ∧ replacing.Answering ∧
      (replacing.process linkAroundParagraph { world := () }).fault = none ∧
      (∃ ledger : Ledger,
        (replacing.process linkAroundParagraph { world := () }).value =
          (ledger []).settle replacing.excluded linkAroundParagraph ∧
        ∀ p ∈ [[1], []], ∃ container, at? p linkAroundParagraph = some container ∧
          Ledger.Accounts replacing.excluded ledger p container) ∧
      (replacing.process linkAroundParagraph { world := () }).value.children.map Node.text? =
        [some " (", none, some ") [["] := by
  have hwell : linkAroundParagraph.wellFormed = true := by decide
  have hctx : replacing.Answering := by
    intro call world
    cases call with
    | template call => exact ⟨[], world, rfl, by simp [Fit]⟩
    | link reference => exact ⟨_, world, rfl, List.all_eq_true.mp (by decide +kernel)⟩
  have hreached : linkAroundParagraph.reached replacing.excluded = [[1], []] := by decide +kernel
  obtain ⟨hend, hsettles⟩ := replacing.process_settles hwell { world := () }
  obtain ⟨ledger, -, hvalue, -, haccounts⟩ := hsettles (hend hctx.responsive)
  rw [hreached] at haccounts
  exact ⟨hwell, hctx, hend hctx.responsive, ⟨ledger, hvalue, haccounts⟩, by decide +kernel⟩

end Context

end Transclude
