import Transclude.Render.Markup
import Transclude.Render.Plain
import Transclude.Proofs.Link.Cut

/-!
# Rendering merged texts

Several texts are rendered as the one text that they are merged to, in every form. So neither merging
a list of nodes nor cutting and mending its texts changes what is rendered.
-/

namespace Transclude

/-- A text that is put together is written as its parts are. -/
theorem Form.text_append (form : Form) (s t : String) :
    form.text (s ++ t) = form.text s ++ form.text t := by
  cases form with
  | markup => rfl
  | html => simp [Form.text, Text.escape, String.ofList_append]

namespace Render

variable (form : Form) (replace : List Node → Except Fault String)

/-- A text is written as itself. -/
theorem node_of_text? {n : Node} {s : String} (h : n.text? = some s) :
    node form (fun _ => .keep) replace n = .ok (form.text s) := by
  cases n with
  | stray value => simp [Node.text?] at h
  | node head info children =>
    obtain ⟨hkind, hvalue⟩ := Node.text?_eq_some.mp h
    have hkinds : head.kinds.single? = some .text := by
      rw [Head.isKind, beq_iff_eq] at hkind
      rw [hkind, Kinds.single?_single]
    rw [node, hkinds]
    dsimp only
    rw [hvalue, Form.value]

/-- A list is written from its first node on. -/
theorem nodes_cons (n : Node) (rest : List Node) :
    nodes form (fun _ => .keep) replace (n :: rest) = do
      let text ← node form (fun _ => .keep) replace n
      let others ← nodes form (fun _ => .keep) replace rest
      return text ++ others := by
  rw [nodes]

/-- A node in front of merged nodes is written in front of them. -/
theorem nodes_prependMerged (n : Node) (ms : List Node) :
    nodes form (fun _ => .keep) replace (n.prependMerged ms) =
      nodes form (fun _ => .keep) replace (n :: ms) := by
  cases ms with
  | nil => rfl
  | cons m rest =>
    by_cases hnm : n.text? = none ∨ m.text? = none
    · rw [Node.prependMerged_of_apart hnm]
    · rw [not_or] at hnm
      obtain ⟨s, hs⟩ := Option.ne_none_iff_exists'.mp hnm.1
      obtain ⟨t, ht⟩ := Option.ne_none_iff_exists'.mp hnm.2
      rw [Node.prependMerged_of_texts hs ht, nodes_cons, nodes_cons, nodes_cons,
        node_of_text? form replace hs, node_of_text? form replace ht,
        node_of_text? form replace (Node.text?_text (s ++ t)), Form.text_append]
      cases nodes form (fun _ => .keep) replace rest with
      | error fault => rfl
      | ok others =>
        change Except.ok (form.text s ++ form.text t ++ others) =
          Except.ok (form.text s ++ (form.text t ++ others))
        rw [String.append_assoc]

/-- Merged nodes are written as they were before. -/
theorem nodes_mergeText (ns : List Node) :
    nodes form (fun _ => .keep) replace (Node.mergeText ns) =
      nodes form (fun _ => .keep) replace ns := by
  induction ns with
  | nil => rfl
  | cons n rest ih =>
    rw [Node.mergeText_cons, nodes_prependMerged, nodes_cons, nodes_cons, ih]

/-- A node is written as it is after its text is cut and mended. -/
theorem node_refresh (n : Node) :
    node form (fun _ => .keep) replace (Link.refresh n) = node form (fun _ => .keep) replace n := by
  cases h : n.text? with
  | none => rw [Link.refresh_of_text?_eq_none h]
  | some s =>
    have hn : (Link.refresh n).text? = some s := by rw [Link.text?_refresh, h]
    rw [node_of_text? form replace h, node_of_text? form replace hn]

/-- Nodes are written as they are after their texts are cut and mended. -/
theorem nodes_map_refresh (ns : List Node) :
    nodes form (fun _ => .keep) replace (ns.map Link.refresh) =
      nodes form (fun _ => .keep) replace ns := by
  induction ns with
  | nil => rfl
  | cons n rest ih => rw [List.map_cons, nodes_cons, nodes_cons, node_refresh, ih]

/-- A node is written by what it is and by what is written for its children. -/
theorem node_congr (head : Head) (info : Info) {children others : List Node}
    (h : nodes form (fun _ => .keep) replace children = nodes form (fun _ => .keep) replace others)
    (hempty : children.isEmpty = others.isEmpty) :
    node form (fun _ => .keep) replace (.node head info children) =
      node form (fun _ => .keep) replace (.node head info others) := by
  rw [node, node, h, hempty]

end Render

namespace Node

/-- The text of a text is its value. -/
theorem textOf_of_text? {n : Node} {s : String} (h : n.text? = some s) :
    n.textOf = .ok (some s) := by
  cases n with
  | stray value => simp [text?] at h
  | node head info children =>
    obtain ⟨hkind, hvalue⟩ := text?_eq_some.mp h
    rw [textOf, hkind, hvalue]
    rfl

/-- The text of a list starts with that of its first node. -/
theorem textsOf_cons (n : Node) (rest : List Node) :
    textsOf (n :: rest) = do
      let text ← textOf n
      let others ← textsOf rest
      match text, others with
      | some s, some t => return some (s ++ t)
      | _, _ => return none := rfl

/-- A node in front of merged nodes has its text in front of theirs. -/
theorem textsOf_prependMerged (n : Node) (ms : List Node) :
    textsOf (n.prependMerged ms) = textsOf (n :: ms) := by
  cases ms with
  | nil => rfl
  | cons m rest =>
    by_cases hnm : n.text? = none ∨ m.text? = none
    · rw [prependMerged_of_apart hnm]
    · rw [not_or] at hnm
      obtain ⟨s, hs⟩ := Option.ne_none_iff_exists'.mp hnm.1
      obtain ⟨t, ht⟩ := Option.ne_none_iff_exists'.mp hnm.2
      rw [prependMerged_of_texts hs ht, textsOf_cons, textsOf_cons, textsOf_cons,
        textOf_of_text? hs, textOf_of_text? ht, textOf_of_text? (text?_text (s ++ t))]
      cases textsOf rest with
      | error fault => rfl
      | ok others =>
        cases others with
        | none => rfl
        | some r =>
          change Except.ok (some (s ++ t ++ r)) = Except.ok (some (s ++ (t ++ r)))
          rw [String.append_assoc]

/-- Merged nodes have the text that they had before. -/
theorem textsOf_mergeText (ns : List Node) : textsOf (mergeText ns) = textsOf ns := by
  induction ns with
  | nil => rfl
  | cons n rest ih => rw [mergeText_cons, textsOf_prependMerged, textsOf_cons, textsOf_cons, ih]

/-- A node keeps its text when it is cut and mended. -/
theorem textOf_refresh (n : Node) : (Link.refresh n).textOf = n.textOf := by
  cases h : n.text? with
  | none => rw [Link.refresh_of_text?_eq_none h]
  | some s =>
    have hn : (Link.refresh n).text? = some s := by rw [Link.text?_refresh, h]
    rw [textOf_of_text? h, textOf_of_text? hn]

/-- Nodes keep their text when they are cut and mended. -/
theorem textsOf_map_refresh (ns : List Node) : textsOf (ns.map Link.refresh) = textsOf ns := by
  induction ns with
  | nil => rfl
  | cons n rest ih => rw [List.map_cons, textsOf_cons, textsOf_cons, textOf_refresh, ih]

/-- A node has its text by what it is and by the text of its children. -/
theorem textOf_congr (head : Head) (info : Info) {children others : List Node}
    (h : textsOf children = textsOf others) :
    (Node.node head info children).textOf = (Node.node head info others).textOf := by
  rw [textOf, textOf, h]

end Node

end Transclude
