import Transclude.Proofs.Run.Steps
import Transclude.Proofs.Tree.Display
import Transclude.Proofs.Tree.PlainTexts

/-!
# Links by the values of texts

What a text carries besides its value plays no part when links are recognised. All that is done at the
end of a container goes along with `Node.plainTexts`, for all nodes: merging, cutting, grouping, and
what becomes of a group (`Step.ofGroup_mapNodes_plainTexts`). `Node.Immaterial` says this of any map on
nodes. The identity is one as well, so what is proved of such maps is proved of runs that are the same
and of runs that are the same up to what texts carry.
-/

namespace Transclude

/-! ## Other nodes in the same places -/

section MapNodes

variable (f : Node → Node)

/-- A reference with another node in the place of each that it displays. -/
def LinkReference.mapNodes (reference : LinkReference) : LinkReference :=
  { reference with nodes := reference.nodes.map f }

/-- A call with another node in the place of each that it hands over. -/
def Call.mapNodes : Call → Call
  | .template call => .template call
  | .link reference => .link (reference.mapNodes f)

/-- An item with another node in its place. -/
def Link.Item.mapNodes : Link.Item → Link.Item
  | .node n => .node (f n)
  | .delimiter d => .delimiter d

/-- A group with another node in the place of each. -/
def Link.Group.mapNodes (g : Link.Group) : Link.Group := { g with nodes := g.nodes.map f }

/-- A step with another node in the place of each that it keeps or hands over. -/
def Step.mapNodes : Step → Step
  | .keep nodes => .keep (nodes.map f)
  | .tell note nodes => .tell note (nodes.map f)
  | .ask call => .ask (call.mapNodes f)
  | .fail fault => .fail fault

end MapNodes

/-- Only a template call becomes a template call, and it stays the same. -/
theorem Call.eq_template_of_mapNodes {f : Node → Node} {call : TemplateCall} {other : Call}
    (h : (Call.template call).mapNodes f = other.mapNodes f) : other = .template call := by
  cases other with
  | template other => exact h.symm
  | link reference => cases h

/-- Only a call for a link becomes one. -/
theorem Call.exists_link_of_mapNodes {f : Node → Node} {reference : LinkReference} {other : Call}
    (h : (Call.link reference).mapNodes f = other.mapNodes f) :
    ∃ reference', other = .link reference' ∧ reference.mapNodes f = reference'.mapNodes f := by
  cases other with
  | template other => cases h
  | link reference' => exact ⟨reference', rfl, Call.link.inj h⟩

/-! ## Merging and displaying -/

namespace Node

/-- A node is a text node with nothing but the values in its texts if it was one before. -/
theorem isText_plainTexts (n : Node) : n.plainTexts.isText = n.isText := by
  cases h : n.text? with
  | some s => rw [plainTexts_of_text? h, isText_text, isText_of_text? h]
  | none =>
    cases n with
    | stray value => rw [plainTexts]
    | node head info children => rw [plainTexts_node h, isText, isText]

/-- A node is an odd text if it was one before. -/
theorem isOddText_plainTexts (n : Node) : n.plainTexts.isOddText = n.isOddText := by
  rw [isOddText, isText_plainTexts, text?_plainTexts, isOddText]

/-- Merging fails as it does by the values. -/
theorem mergeFaultFrom_map_plainTexts (length : Nat) (odd : Bool) (ns : List Node) :
    mergeFaultFrom length odd (ns.map plainTexts) = mergeFaultFrom length odd ns := by
  induction ns generalizing length odd with
  | nil => rfl
  | cons n rest ih =>
    cases n with
    | stray value => rw [List.map_cons, plainTexts, mergeFaultFrom, mergeFaultFrom]
    | node head info children =>
      have htext := isText_plainTexts (.node head info children)
      have hodd := isOddText_plainTexts (.node head info children)
      cases hplain : (Node.node head info children).plainTexts with
      | stray value =>
        cases h : (Node.node head info children).text? <;>
          simp [plainTexts, h, text] at hplain
      | node head' info' children' =>
        rw [hplain] at htext hodd
        rw [List.map_cons, hplain]
        simp only [mergeFaultFrom, htext, hodd, ih]

/-- Merging goes by the values. -/
theorem merge_map_plainTexts (ns : List Node) :
    merge (ns.map plainTexts) = (merge ns).map (List.map plainTexts) := by
  unfold merge
  rw [mergeFaultFrom_map_plainTexts, ← map_plainTexts_mergeText]
  cases mergeFaultFrom 0 false ns <;> rfl

/-- A text is displayed as a new one with its value. -/
theorem display_of_text? {n : Node} {s : String} (h : n.text? = some s) :
    n.display = (text s).display := by
  cases n with
  | stray value => simp [text?] at h
  | node head info children =>
    obtain ⟨hkind, hvalue⟩ := text?_eq_some.mp h
    have hkinds : head.kinds = .single .text := beq_iff_eq.mp hkind
    have hvalued : (Kinds.single .text).within .valued = true := by decide
    have hnewKinds : (Head.text s).kinds = .single .text := rfl
    have hnewValue : (Head.text s).value = .str s := rfl
    simp [text, display, hkinds, hvalue, hvalued, hnewKinds, hnewValue]

/-- A text can be displayed. -/
theorem displayable_of_text? {n : Node} {s : String} (h : n.text? = some s) :
    n.displayable = true := by
  cases n with
  | stray value => simp [text?] at h
  | node head info children =>
    have hkinds : head.kinds = .single .text := beq_iff_eq.mp (text?_eq_some.mp h).1
    have hvalued : (Kinds.single .text).within .valued = true := by decide
    simp [displayable, hkinds, hvalued]

mutual

/-- A tree is displayed by the values of its texts. -/
theorem display_plainTexts : ∀ n : Node, n.plainTexts.display = n.display
  | .stray value => by rw [plainTexts]
  | .node head info children => by
    cases h : (Node.node head info children).text? with
    | some s => rw [plainTexts_of_text? h, display_of_text? h]
    | none =>
      rw [plainTexts_node h, display, display, displays_map_plainTexts children]

/-- Trees are displayed by the values of their texts. -/
theorem displays_map_plainTexts : ∀ ns : List Node, displays (ns.map plainTexts) = displays ns
  | [] => rfl
  | n :: rest => by
    rw [List.map_cons, displays, displays, display_plainTexts n, displays_map_plainTexts rest]

end

mutual

/-- A tree can be displayed if it can by the values of its texts. -/
theorem displayable_plainTexts : ∀ n : Node, n.plainTexts.displayable = n.displayable
  | .stray value => by rw [plainTexts]
  | .node head info children => by
    cases h : (Node.node head info children).text? with
    | some s => rw [plainTexts_of_text? h, displayable_of_text? h, displayable_text]
    | none =>
      rw [plainTexts_node h, displayable, displayable, allDisplayable_map_plainTexts children]

/-- Trees can be displayed if they can by the values of their texts. -/
theorem allDisplayable_map_plainTexts : ∀ ns : List Node,
    allDisplayable (ns.map plainTexts) = allDisplayable ns
  | [] => rfl
  | n :: rest => by
    rw [List.map_cons, allDisplayable, allDisplayable, displayable_plainTexts n,
      allDisplayable_map_plainTexts rest]

end

/-- A list of trees is displayed by the values of their texts. -/
theorem displayList?_map_plainTexts (ns : List Node) :
    displayList? (ns.map plainTexts) = displayList? ns := by
  rw [displayList?, allDisplayable_map_plainTexts, displayList, displays_map_plainTexts,
    displayList?, displayList]

end Node

open Node

/-! ## Cutting and grouping -/

namespace Link

/-- Nodes cannot be cut for the same reason as by the values of their texts. -/
theorem cutFault?_map_plainTexts (ns : List Node) :
    cutFault? (ns.map plainTexts) = cutFault? ns := by
  induction ns with
  | nil => rfl
  | cons n rest ih =>
    cases n with
    | stray value => rw [List.map_cons, plainTexts, cutFault?, cutFault?]
    | node head info children =>
      have hodd := isOddText_plainTexts (.node head info children)
      cases h : (Node.node head info children).text? with
      | some s =>
        -- A text whose value is one is not odd.
        have hnot : (Node.node head info children).isOddText = false := by simp [isOddText, h]
        rw [hnot, plainTexts_of_text? h, text] at hodd
        rw [List.map_cons, plainTexts_of_text? h, text, cutFault?, cutFault?, hodd, hnot, ih]
        rfl
      | none =>
        rw [plainTexts_node h] at hodd
        rw [List.map_cons, plainTexts_node h, cutFault?, cutFault?, hodd, ih]

/-- Each node becomes the items that it becomes by the values of its texts. -/
theorem itemsOf_plainTexts (n : Node) :
    itemsOf n.plainTexts = (itemsOf n).map (Item.mapNodes plainTexts) := by
  unfold itemsOf
  rw [text?_plainTexts]
  cases h : n.text? with
  | none => rfl
  | some s =>
    dsimp only
    split
    · rw [List.map_map]
      refine List.map_congr_left fun token _ => ?_
      cases token with
      | text cs => exact congrArg Item.node (plainTexts_of_text? (text?_text _)).symm
      | delimiter d => rfl
    · rfl

/-- Nodes become the items that they become by the values of their texts. -/
theorem items_map_plainTexts (ns : List Node) :
    items (ns.map plainTexts) = (items ns).map (Item.mapNodes plainTexts) := by
  unfold items
  rw [List.flatMap_map, List.map_flatMap]
  exact congrArg (ns.flatMap ·) (funext itemsOf_plainTexts)

/-- Nodes are cut as they are by the values of their texts. -/
theorem tokenize_map_plainTexts (ns : List Node) :
    tokenize (ns.map plainTexts) = (tokenize ns).map (List.map (Item.mapNodes plainTexts)) := by
  unfold tokenize
  rw [cutFault?_map_plainTexts, items_map_plainTexts]
  cases cutFault? ns <;> rfl

/-- Items with other nodes are divided into groups with other nodes. -/
theorem groupsFrom_map_mapNodes (f : Node → Node) (is : List Item) (pos start : Nat) (opened : Bool)
    (ns : List Node) : groupsFrom pos start opened (ns.map f) (is.map (Item.mapNodes f)) =
      (groupsFrom pos start opened ns is).map (Group.mapNodes f) := by
  induction is generalizing pos start opened ns with
  | nil => rfl
  | cons item rest ih =>
    cases item with
    | node n =>
      have hnodes : ns.map f ++ [f n] = (ns ++ [n]).map f := by simp
      rw [List.map_cons, Item.mapNodes, groupsFrom, hnodes, ih, groupsFrom]
    | delimiter d =>
      have hnil : ([] : List Node) = [].map f := rfl
      rw [List.map_cons, Item.mapNodes, groupsFrom_delimiter, groupsFrom_delimiter, List.map_cons,
        ← ih, ← hnil, Group.mapNodes]

/-- Items with other nodes are in groups with other nodes. -/
theorem groups_map_mapNodes (f : Node → Node) (is : List Item) :
    groups (is.map (Item.mapNodes f)) = (groups is).map (Group.mapNodes f) :=
  groupsFrom_map_mapNodes f is 0 0 false []

end Link

/-- A reference with other nodes after its text goes by the values of their texts. -/
theorem LinkReference.ofText?_map_plainTexts (cs : List Char) (others : List Node) :
    ofText? cs (others.map plainTexts) = (ofText? cs others).map (mapNodes plainTexts) := by
  unfold ofText?
  split
  · rfl
  · dsimp only
    rw [Option.map_some, mapNodes]
    dsimp only
    split
    · rw [List.map_cons, plainTexts_of_text? (text?_text _)]
    · rfl

namespace Link

namespace Group

variable (g : Group)

/-- A group is restored by the values of its texts. -/
theorem restore_mapNodes_plainTexts :
    (g.mapNodes plainTexts).restore = g.restore.map plainTexts := by
  have hnew (s : String) : (text s).plainTexts = text s := plainTexts_of_text? (text?_text s)
  unfold restore mapNodes
  dsimp only
  rw [List.map_append, List.map_append]
  cases g.opened <;> cases g.closed <;> simp [hnew]

/-- It cannot be said whether a group is a link for the same reason as by the values of its texts. -/
theorem fault?_mapNodes_plainTexts : (g.mapNodes plainTexts).fault? = g.fault? := by
  obtain ⟨start, stop, opened, closed, nodes⟩ := g
  unfold fault? mapNodes
  dsimp only
  cases opened && closed with
  | false => rfl
  | true =>
    cases nodes with
    | nil => rfl
    | cons first others =>
      cases first with
      | stray value => rw [List.map_cons, plainTexts]
      | node head info children =>
        have hodd := isOddText_plainTexts (.node head info children)
        cases h : (Node.node head info children).text? with
        | some s =>
          have hnot : (Node.node head info children).isOddText = false := by simp [isOddText, h]
          rw [hnot, plainTexts_of_text? h, text] at hodd
          rw [List.map_cons, plainTexts_of_text? h, text]
          simp only [hodd, hnot, Bool.false_and]
        | none =>
          rw [plainTexts_node h] at hodd
          rw [List.map_cons, plainTexts_node h]
          simp only [hodd]

/-- The reference of a group goes by the values of its texts. -/
theorem reference?_mapNodes_plainTexts :
    (g.mapNodes plainTexts).reference? = g.reference?.map (LinkReference.mapNodes plainTexts) := by
  obtain ⟨start, stop, opened, closed, nodes⟩ := g
  unfold reference? mapNodes
  dsimp only
  cases opened && closed with
  | false => rfl
  | true =>
    cases nodes with
    | nil => rfl
    | cons first others =>
      rw [List.map_cons]
      dsimp only
      rw [text?_plainTexts]
      cases first.text? with
      | none => rfl
      | some s =>
        dsimp only
        split
        · rfl
        · exact LinkReference.ofText?_map_plainTexts s.toList others

/-- Whether a group is a link goes by the values of its texts. -/
theorem link_mapNodes_plainTexts : (g.mapNodes plainTexts).link =
    g.link.map (Option.map (LinkReference.mapNodes plainTexts)) := by
  unfold link
  rw [fault?_mapNodes_plainTexts, reference?_mapNodes_plainTexts]
  cases g.fault? <;> rfl

end Group

end Link

/-! ## Steps -/

/-- The message about a group goes by the values of its texts. -/
theorem Context.groupNote_mapNodes_plainTexts (g : Link.Group) :
    groupNote (g.mapNodes plainTexts) = groupNote g := by
  unfold groupNote Link.Group.mapNodes
  dsimp only
  rw [displayList?_map_plainTexts]

/-- What becomes of a group goes by the values of its texts. -/
theorem Step.ofGroup_mapNodes_plainTexts (g : Link.Group) :
    ofGroup (g.mapNodes plainTexts) = (ofGroup g).mapNodes plainTexts := by
  unfold ofGroup
  rw [Link.Group.link_mapNodes_plainTexts, Context.groupNote_mapNodes_plainTexts,
    Link.Group.restore_mapNodes_plainTexts]
  cases g.link with
  | error fault => rfl
  | ok reference? =>
    cases reference? with
    | some reference => rfl
    | none =>
      cases Context.groupNote g with
      | error fault => rfl
      | ok note? => cases note? <;> rfl

/-! ## What does not matter for links -/

/-- What `f` takes away from nodes plays no part when links are recognised among them. -/
structure Node.Immaterial (f : Node → Node) : Prop where
  /-- Merging goes by what is left. -/
  merge : ∀ ns, Node.merge (ns.map f) = (Node.merge ns).map (List.map f)
  /-- Cutting goes by what is left. -/
  tokenize : ∀ ns, Link.tokenize (ns.map f) = (Link.tokenize ns).map (List.map (Link.Item.mapNodes f))
  /-- What becomes of a group goes by what is left. -/
  ofGroup : ∀ g, Step.ofGroup (g.mapNodes f) = (Step.ofGroup g).mapNodes f
  /-- What is left of a container goes by what is left of its children. -/
  node : ∀ {head : Head} {info : Info} {children children' : List Node},
    (Node.node head info children).text? = none → children.map f = children'.map f →
    f (.node head info children) = f (.node head info children')

/-- Nothing is taken away. -/
theorem Node.immaterial_id : Immaterial id := by
  have hreference : LinkReference.mapNodes id = id := by
    funext reference
    simp [LinkReference.mapNodes]
  have hcall : Call.mapNodes id = id := by
    funext call
    cases call <;> simp [Call.mapNodes, hreference]
  have hitem : Link.Item.mapNodes id = id := by
    funext item
    cases item <;> rfl
  refine ⟨fun ns => ?_, fun ns => ?_, fun g => ?_, fun _ h => ?_⟩
  · rw [List.map_id, List.map_id_fun]
    cases Node.merge ns <;> rfl
  · rw [List.map_id, hitem, List.map_id_fun]
    cases Link.tokenize ns <;> rfl
  · have hgroup : g.mapNodes id = g := by simp [Link.Group.mapNodes]
    rw [hgroup]
    cases Step.ofGroup g <;> simp [Step.mapNodes, hcall]
  · rw [List.map_id, List.map_id] at h
    rw [h]

/-- What texts carry besides their values does not matter. -/
theorem Node.immaterial_plainTexts : Immaterial plainTexts where
  merge := merge_map_plainTexts
  tokenize := Link.tokenize_map_plainTexts
  ofGroup := Step.ofGroup_mapNodes_plainTexts
  node := by
    intro head info children children' hnone h
    have hnone' : (Node.node head info children').text? = none := hnone
    rw [plainTexts_node hnone, plainTexts_node hnone', h]

end Transclude
