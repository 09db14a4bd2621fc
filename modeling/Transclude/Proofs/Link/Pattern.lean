import Transclude.Proofs.Link.Fate

/-!
# Patterns of texts

The pattern of a list of nodes says where its texts are and what they say. Of the other nodes it says
only where they are. Which links there are among nodes can be told by their pattern, and what these
refer to, but for the nodes that they display besides texts (`alike_references`).
-/

namespace Transclude

/-! ## Nodes -/

namespace Node

/-- Two nodes that are texts with the same value, or are both no texts. -/
def Similar (n m : Node) : Prop := n.text? = m.text?

/-- The texts of a list of nodes, and nothing in the place of each other node. -/
def textPattern (ns : List Node) : List (Option String) := ns.map text?

/-- Lists with the same pattern are similar node by node. -/
theorem forall₂_similar_iff {ns ms : List Node} :
    List.Forall₂ Similar ns ms ↔ textPattern ns = textPattern ms := by
  unfold textPattern
  rw [← List.forall₂_eq_eq_eq, List.forall₂_map_left_iff, List.forall₂_map_right_iff]
  rfl

variable {n m : Node} {ns ms : List Node}

/-- Similar nodes in front of similar merged nodes. -/
theorem similar_prependMerged (hn : Similar n m) (h : List.Forall₂ Similar ns ms) :
    List.Forall₂ Similar (prependMerged n ns) (prependMerged m ms) := by
  unfold Similar at hn
  cases h with
  | nil => exact .cons hn .nil
  | cons hfirst hrest =>
    have hfirst' := hfirst
    unfold Similar at hfirst'
    simp only [prependMerged, hn, hfirst']
    split
    · exact .cons rfl hrest
    · exact .cons hn (.cons hfirst hrest)

/-- Similar nodes are similar when they are merged. -/
theorem similar_mergeText (h : List.Forall₂ Similar ns ms) :
    List.Forall₂ Similar (mergeText ns) (mergeText ms) := by
  induction h with
  | nil => exact .nil
  | cons hn _ ih => exact similar_prependMerged hn ih

end Node

/-! ## References and calls -/

/-- Two references to the same place, which display texts and other nodes alike. -/
structure LinkReference.Alike (a b : LinkReference) : Prop where
  /-- They name the same file. -/
  file : a.file = b.file
  /-- They name the same id. -/
  id : a.id = b.id
  /-- They have the same texts to display, and as many nodes. -/
  nodes : Node.textPattern a.nodes = Node.textPattern b.nodes

/-- Two calls of the same template with the same parameters, or two calls for links to the same
place. -/
inductive Call.Alike : Call → Call → Prop where
  /-- Two template calls. -/
  | template (call : TemplateCall) : Alike (.template call) (.template call)
  /-- Two calls for links. -/
  | link {a b : LinkReference} : a.Alike b → Alike (.link a) (.link b)

namespace LinkReference

/-- A text followed by similar nodes makes references that are alike. -/
theorem alike_ofText? (cs : List Char) {ns ms : List Node} (h : List.Forall₂ Node.Similar ns ms) :
    Option.Rel Alike (ofText? cs ns) (ofText? cs ms) := by
  unfold ofText?
  split
  · exact .none
  · refine .some ⟨rfl, rfl, Node.forall₂_similar_iff.mp ?_⟩
    dsimp only
    split
    · exact .cons rfl h
    · exact h

end LinkReference

namespace Link

/-! ## Items and groups -/

/-- Two items that are the same delimiter, or similar nodes. -/
inductive Item.Similar : Item → Item → Prop where
  /-- Two nodes. -/
  | node {n m : Node} : n.Similar m → Similar (.node n) (.node m)
  /-- A delimiter. -/
  | delimiter (d : Delimiter) : Similar (.delimiter d) (.delimiter d)

/-- Two groups of similar nodes between the same delimiters. -/
structure Group.Similar (g g' : Group) : Prop where
  /-- Both are opened or both are not. -/
  opened : g.opened = g'.opened
  /-- Both are closed or both are not. -/
  closed : g.closed = g'.closed
  /-- Their nodes are similar. -/
  nodes : List.Forall₂ Node.Similar g.nodes g'.nodes

/-- An item is similar to itself. -/
theorem Item.similar_refl (item : Item) : item.Similar item := by
  cases item with
  | node n => exact .node rfl
  | delimiter d => exact .delimiter d

/-- Similar nodes become similar items. -/
theorem similar_itemsOf {n m : Node} (h : n.Similar m) :
    List.Forall₂ Item.Similar (itemsOf n) (itemsOf m) := by
  have hnodes : List.Forall₂ Item.Similar [.node n] [.node m] := .cons (.node h) .nil
  unfold Node.Similar at h
  unfold itemsOf
  rw [h]
  cases m.text? with
  | none => exact hnodes
  | some s =>
    dsimp only
    split
    · exact List.forall₂_same.mpr fun item _ => item.similar_refl
    · exact hnodes

/-- Similar lists of nodes become similar items. -/
theorem similar_items {ns ms : List Node} (h : List.Forall₂ Node.Similar ns ms) :
    List.Forall₂ Item.Similar (items ns) (items ms) :=
  List.rel_flatMap h fun _ _ => similar_itemsOf

/-- Similar items are divided into similar groups. -/
theorem similar_groupsFrom {is js : List Item} (h : List.Forall₂ Item.Similar is js)
    (pos start pos' start' : Nat) (opened : Bool) {ns ms : List Node}
    (hnodes : List.Forall₂ Node.Similar ns ms) :
    List.Forall₂ Group.Similar (groupsFrom pos start opened ns is)
      (groupsFrom pos' start' opened ms js) := by
  -- The open groups stay similar, wherever they begin.
  induction h generalizing pos start pos' start' opened ns ms with
  | nil => exact .cons ⟨rfl, rfl, hnodes⟩ .nil
  | cons hitem _ ih =>
    cases hitem with
    | node hn =>
      exact ih _ _ _ _ opened (List.rel_append hnodes (.cons hn .nil))
    | delimiter d =>
      rw [groupsFrom_delimiter, groupsFrom_delimiter]
      exact .cons ⟨rfl, rfl, hnodes⟩ (ih _ _ _ _ (d == .start) .nil)

/-- Similar groups are links that are alike, or both are none. -/
theorem alike_reference? {g g' : Group} (h : g.Similar g') :
    Option.Rel LinkReference.Alike g.reference? g'.reference? := by
  obtain ⟨start, stop, opened, closed, nodes⟩ := g
  obtain ⟨start', stop', opened', closed', nodes'⟩ := g'
  obtain ⟨rfl, rfl, hnodes⟩ : opened = opened' ∧ closed = closed' ∧
    List.Forall₂ Node.Similar nodes nodes' := ⟨h.opened, h.closed, h.nodes⟩
  unfold Group.reference?
  cases opened && closed with
  | false => exact .none
  | true =>
    cases hnodes with
    | nil => exact .none
    | cons hfirst hothers =>
      dsimp only
      rw [show _ = _ from hfirst]
      split
      · split
        · exact .none
        · exact LinkReference.alike_ofText? _ hothers
      · exact .none

/-- The references of the links among nodes, after their texts are merged. -/
def references (ns : List Node) : List LinkReference :=
  (groups (items (Node.mergeText ns))).filterMap Group.reference?

/-- The links among nodes can be told by the pattern of these. -/
theorem alike_references {ns ms : List Node} (h : Node.textPattern ns = Node.textPattern ms) :
    List.Forall₂ LinkReference.Alike (references ns) (references ms) := by
  have hitems := similar_items (Node.similar_mergeText (Node.forall₂_similar_iff.mpr h))
  have hgroups := similar_groupsFrom hitems 0 0 0 0 false .nil
  exact List.rel_filterMap (fun _ _ hg => alike_reference? hg) hgroups

end Link

/-! ## Steps -/

namespace Step

/-- The step for a group calls for its reference, if it is a link, unless the step fails. -/
theorem call?_ofGroup {g : Link.Group} (h : ∀ fault, ofGroup g ≠ .fail fault) :
    (ofGroup g).call? = g.reference?.map .link := by
  cases hfault : g.fault? with
  | some fault => exact absurd (by simp [ofGroup, Link.Group.link, hfault]) (h fault)
  | none =>
    simp only [ofGroup, Link.Group.link, hfault]
    cases g.reference? with
    | some reference => rfl
    | none =>
      dsimp only
      split <;> rfl

/-- The step for a group that is no link keeps the group with its delimiters, unless the step
fails. -/
theorem kept_ofGroup {g : Link.Group} (h : ∀ fault, ofGroup g ≠ .fail fault)
    (hnone : g.reference? = none) : (ofGroup g).kept = g.restore := by
  cases hfault : g.fault? with
  | some fault => exact absurd (by simp [ofGroup, Link.Group.link, hfault]) (h fault)
  | none =>
    simp only [ofGroup, Link.Group.link, hfault, hnone] at h ⊢
    cases hnote : Context.groupNote g with
    | error fault => exact absurd (by simp [hnote]) (h fault)
    | ok note? => cases note? <;> rfl

/-- The steps for groups call for the references of those that are links, unless a step fails. -/
theorem calls_ofGroup {gs : List Link.Group} (h : ∀ fault, .fail fault ∉ gs.map ofGroup) :
    calls (gs.map ofGroup) = (gs.filterMap Link.Group.reference?).map .link := by
  unfold calls
  rw [List.filterMap_map, List.map_filterMap]
  refine List.filterMap_congr fun g hg => call?_ofGroup fun fault hfault => ?_
  exact h fault (List.mem_map.mpr ⟨g, hg, hfault⟩)

end Step

end Transclude
