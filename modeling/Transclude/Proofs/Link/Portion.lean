import Transclude.Proofs.Link.Pattern
import Transclude.Proofs.Tree.Separate

/-!
# What becomes of nodes when their links are resolved

Nodes that are merged and divided into groups become portions: those that stay, and those that a link
takes with it. No node other than a text node is lost on the way, doubled or moved past another:
`nonTexts_groups` says so of the groups and `nonTexts_held_portions` of the portions. Text nodes are
merged and cut, so nothing of the kind can be said of them.
-/

namespace Transclude

/-! ## Nodes other than texts -/

namespace Node

/-- The nodes of a list that are no text nodes, in order. -/
def nonTexts (ns : List Node) : List Node := ns.filter fun n => !n.isText

/-- The nodes of two lists, one after the other. -/
theorem nonTexts_append (ns ms : List Node) : nonTexts (ns ++ ms) = nonTexts ns ++ nonTexts ms :=
  List.filter_append ns ms

/-- A node comes before those after it. -/
theorem nonTexts_cons (n : Node) (rest : List Node) :
    nonTexts (n :: rest) = nonTexts [n] ++ nonTexts rest := nonTexts_append [n] rest

/-- A text is not among them. -/
theorem nonTexts_of_isText {n : Node} (h : n.isText = true) : nonTexts [n] = [] := by
  simp [nonTexts, h]

/-- A new text is not among them. -/
theorem nonTexts_text (s : String) : nonTexts [text s] = [] := nonTexts_of_isText (isText_text s)

/-- A node that is put in front of merged nodes stays in front, unless it is a text. -/
theorem nonTexts_prependMerged (n : Node) (ms : List Node) :
    nonTexts (prependMerged n ms) = nonTexts [n] ++ nonTexts ms := by
  unfold prependMerged
  cases ms with
  | nil => exact (List.append_nil _).symm
  | cons m rest =>
    dsimp only
    split
    · next s t hs ht =>
      rw [nonTexts_cons (text (s ++ t)), nonTexts_text, nonTexts_of_isText (isText_of_text? hs),
        nonTexts_cons m, nonTexts_of_isText (isText_of_text? ht)]
      rfl
    · exact nonTexts_cons n (m :: rest)

/-- Merging concerns texts only. -/
theorem nonTexts_mergeText (ns : List Node) : nonTexts (mergeText ns) = nonTexts ns := by
  induction ns with
  | nil => rfl
  | cons n rest ih => rw [mergeText_cons, nonTexts_prependMerged, ih, ← nonTexts_cons]

end Node

/-! ## Groups -/

namespace Link

open Node

/-- The parts of a text that is cut are texts. -/
theorem nonTexts_map_item (tokens : List Token) :
    nonTexts ((tokens.map Token.item).filterMap Item.node?) = [] := by
  induction tokens with
  | nil => rfl
  | cons t rest ih =>
    cases t with
    | text cs =>
      change nonTexts (text (String.ofList cs) :: (rest.map Token.item).filterMap Item.node?) = []
      rw [nonTexts_cons, nonTexts_text, ih]
      rfl
    | delimiter d => exact ih

/-- Only texts are cut. -/
theorem nonTexts_itemsOf (n : Node) :
    nonTexts ((itemsOf n).filterMap Item.node?) = nonTexts [n] := by
  unfold itemsOf
  split
  · rfl
  · next s hs =>
    dsimp only
    split
    · rw [nonTexts_map_item, nonTexts_of_isText (isText_of_text? hs)]
    · rfl

/-- The nodes among the items of a list are those of the list, but for texts. -/
theorem nonTexts_items (ns : List Node) :
    nonTexts ((items ns).filterMap Item.node?) = nonTexts ns := by
  induction ns with
  | nil => rfl
  | cons n rest ih =>
    have hitems : items (n :: rest) = itemsOf n ++ items rest := List.flatMap_cons
    rw [hitems, List.filterMap_append, nonTexts_append, nonTexts_itemsOf, ih, ← nonTexts_cons]

/-- Nodes that are merged, cut and divided into groups are in one group each, but for texts. -/
theorem nonTexts_groups (ns : List Node) :
    nonTexts ((groups (items (mergeText ns))).flatMap Group.nodes) = nonTexts ns := by
  unfold groups
  rw [flatMap_nodes_groupsFrom, List.nil_append, nonTexts_items, nonTexts_mergeText]

/-- What is put back around a group are texts. -/
theorem nonTexts_restore (g : Group) : nonTexts g.restore = nonTexts g.nodes := by
  have htext {b : Bool} {d : Delimiter} :
      nonTexts (if b then [Node.text d.text] else []) = [] := by
    cases b with
    | false => rfl
    | true => exact nonTexts_text d.text
  unfold Group.restore
  rw [nonTexts_append, nonTexts_append, htext, htext, List.nil_append, List.append_nil]

/-- The reference of a group has all nodes of the group, but for texts. -/
theorem nonTexts_of_reference? {g : Group} {reference : LinkReference}
    (h : g.reference? = some reference) : nonTexts reference.nodes = nonTexts g.nodes := by
  obtain ⟨-, first, others, s, hnodes, hs, -, href⟩ := Group.reference?_eq_some.mp h
  -- The first node is a text, and so is what is displayed of it.
  rw [hnodes, nonTexts_cons first, nonTexts_of_isText (isText_of_text? hs), List.nil_append]
  rcases nodes_of_ofText?_eq_some href with hdisplayed | ⟨t, hdisplayed⟩
  · rw [hdisplayed]
  · rw [hdisplayed, nonTexts_cons, nonTexts_text, List.nil_append]

/-! ## Portions -/

/-- What becomes of a group of nodes. -/
inductive Portion where
  /-- Nodes stay, with the delimiters around them as text. -/
  | kept (nodes : List Node)
  /-- A link takes nodes with it, and is answered. -/
  | linked (reference : LinkReference) (answer : List Node)

namespace Portion

/-- The nodes that stay or that the link takes with it. -/
def held : Portion → List Node
  | kept nodes => nodes
  | linked reference _ => reference.nodes

/-- The nodes that stay or that are the answer. -/
def output : Portion → List Node
  | kept nodes => nodes
  | linked _ answer => answer

/-- The call for a link with its answer. -/
def exchange? : Portion → Option (Call × List Node)
  | kept _ => none
  | linked reference answer => some (.link reference, answer)

end Portion

/-- What becomes of groups, with answers to those that are links. -/
def portions : List Group → List (List Node) → List Portion
  | [], _ => []
  | g :: rest, answers =>
    match g.reference? with
    | some reference => .linked reference (answers.headD []) :: portions rest answers.tail
    | none => .kept g.restore :: portions rest answers

/-- The nodes in portions are those of the groups, but for texts. -/
theorem nonTexts_held_portions (gs : List Group) (answers : List (List Node)) :
    nonTexts ((portions gs answers).flatMap Portion.held) = nonTexts (gs.flatMap Group.nodes) := by
  induction gs generalizing answers with
  | nil => rfl
  | cons g rest ih =>
    unfold portions
    split
    · next reference hreference =>
      rw [List.flatMap_cons, List.flatMap_cons, nonTexts_append, nonTexts_append, ih, Portion.held,
        nonTexts_of_reference? hreference]
    · rw [List.flatMap_cons, List.flatMap_cons, nonTexts_append, nonTexts_append, ih, Portion.held,
        nonTexts_restore]

/-- The links among portions are asked for as those of the groups are. -/
theorem filterMap_exchange?_portions {gs : List Group} {talk : List (Call × List Node)}
    (h : talk.map Prod.fst = (gs.filterMap Group.reference?).map .link) :
    (portions gs (talk.map Prod.snd)).filterMap Portion.exchange? = talk := by
  induction gs generalizing talk with
  | nil => exact (List.map_eq_nil_iff.mp h).symm
  | cons g rest ih =>
    unfold portions
    cases hreference : g.reference? with
    | none =>
      rw [List.filterMap_cons_none hreference] at h
      exact ih h
    | some reference =>
      rw [List.filterMap_cons_some hreference] at h
      cases talk with
      | nil => simp at h
      | cons exchange others =>
        obtain ⟨hcall, hothers⟩ := List.cons_eq_cons.mp h
        have hfirst : exchange = (.link reference, exchange.2) := Prod.ext hcall rfl
        change (.link reference, exchange.2) ::
          (portions rest (others.map Prod.snd)).filterMap Portion.exchange? = _
        rw [ih hothers, ← hfirst]

/-- The steps for groups give the nodes that stay and the answers, unless a step fails. -/
theorem flatMap_output_portions {gs : List Group} (h : ∀ fault, .fail fault ∉ gs.map Step.ofGroup)
    (answers : List (List Node)) :
    (portions gs answers).flatMap Portion.output = Step.outputs (gs.map Step.ofGroup) answers := by
  induction gs generalizing answers with
  | nil => rfl
  | cons g rest ih =>
    have hrest := ih fun fault hmem => h fault (List.mem_cons_of_mem _ hmem)
    have hfail : ∀ fault, Step.ofGroup g ≠ .fail fault :=
      fun fault heq => h fault (List.mem_cons.mpr (.inl heq.symm))
    have hcall := Step.call?_ofGroup hfail
    unfold portions
    cases hreference : g.reference? with
    | some reference =>
      rw [hreference] at hcall
      cases hstep : Step.ofGroup g with
      | ask call =>
        rw [List.map_cons, hstep, Step.outputs, ← hrest]
        rfl
      | _ => simp [hstep, Step.call?] at hcall
    | none =>
      have hkept := Step.kept_ofGroup hfail hreference
      rw [hreference] at hcall
      rw [List.map_cons]
      cases hstep : Step.ofGroup g with
      | ask call => simp [hstep, Step.call?] at hcall
      | fail fault => exact absurd hstep (hfail fault)
      | keep nodes =>
        rw [hstep] at hkept
        rw [Step.outputs, ← hrest, ← hkept]
        rfl
      | tell note nodes =>
        rw [hstep] at hkept
        rw [Step.outputs, ← hrest, ← hkept]
        rfl

end Link

end Transclude
