import Transclude.Proofs.Render.Merge
import Transclude.Proofs.Render.Written

/-!
# Rendering with frames

A handler frames nodes if it has each one written as it is, or its children in its place, with or
without a text on either side. What is written under such a handler is what is written without one for
another tree, `Node.reframed`: there a root stands in place of every node whose children are written
instead of it, and the texts around them are text nodes (`render_reframed`). It does not matter what the
handler goes by, as it is asked about the nodes of the tree itself at every depth. No replacement is made
on the way, so the limit on these is never reached, and a well-formed tree can always be written.
-/

namespace Transclude

/-- Whether a handler has a node written as it is, or its children in its place, with or without a text
on either side. -/
def Reaction.isFrame : Reaction → Bool
  | .keep | .children | .wrap _ _ => true
  | .replace _ | .fail _ => false

namespace Node

/-! ## Trees with roots in place of framed nodes -/

section Reframed

variable (react : Node → Reaction)

mutual

/-- A tree with a root in place of every node whose children are written instead of it. -/
def reframed : Node → Node
  | .stray value => .stray value
  | .node head info children =>
    match react (.node head info children) with
    | .children => root (reframedAll children)
    | .wrap before after => root (text before :: (reframedAll children ++ [text after]))
    | _ => .node head info (reframedAll children)

/-- The trees of a list with roots in place of all nodes whose children are written instead of them. -/
def reframedAll : List Node → List Node
  | [] => []
  | n :: rest => reframed n :: reframedAll rest

end

/-- A list keeps its length, so that an element without children still has none. -/
theorem isEmpty_reframedAll (ns : List Node) : (reframedAll react ns).isEmpty = ns.isEmpty := by
  cases ns <;> rfl

mutual

/-- A well-formed tree stays well formed. -/
theorem wellFormed_reframed : ∀ n : Node, n.wellFormed = true → (n.reframed react).wellFormed = true
  | .stray value, h => by simp [wellFormed] at h
  | .node head info children, h => by
    obtain ⟨hregular, hlisted, hchildren⟩ := wellFormed_node.mp h
    have hinner := allWellFormed_reframedAll children hchildren
    have hroot : Head.root.listed = true := by decide
    rw [reframed]
    split
    · exact wellFormed_node.mpr ⟨rfl, .inl hroot, hinner⟩
    · next before after _ =>
      refine wellFormed_node.mpr ⟨rfl, .inl hroot, allWellFormed_iff.mpr ?_⟩
      simp only [List.forall_mem_cons, List.forall_mem_append]
      exact ⟨wellFormed_text before, allWellFormed_iff.mp hinner, wellFormed_text after, by simp⟩
    · refine wellFormed_node.mpr ⟨hregular, hlisted.imp_right fun hnil => ?_, hinner⟩
      rw [hnil, reframedAll]

/-- Well-formed trees stay well formed. -/
theorem allWellFormed_reframedAll : ∀ ns : List Node, allWellFormed ns = true →
    allWellFormed (reframedAll react ns) = true
  | [], _ => by rw [reframedAll, allWellFormed]
  | n :: rest, h => by
    rw [allWellFormed, Bool.and_eq_true] at h
    rw [reframedAll, allWellFormed, wellFormed_reframed n h.1, allWellFormed_reframedAll rest h.2]
    rfl

end

end Reframed

/-! ## Trees with lists of children -/

mutual

/-- Whether every node of a tree has a list of children, which may be empty. -/
def hasLists : Node → Bool
  | .stray _ => true
  | .node head _ children => !head.isBare && allHaveLists children

/-- Whether every node of a list of trees has a list of children. -/
def allHaveLists : List Node → Bool
  | [] => true
  | n :: rest => hasLists n && allHaveLists rest

end

mutual

/-- The nodes of a well-formed tree have lists of children. -/
theorem hasLists_of_wellFormed : ∀ n : Node, n.wellFormed = true → n.hasLists = true
  | .stray value, h => by simp [wellFormed] at h
  | .node head info children, h => by
    obtain ⟨hregular, -, hchildren⟩ := wellFormed_node.mp h
    rw [hasLists, Head.isBare_of_isRegular hregular, allHaveLists_of_allWellFormed children hchildren]
    rfl

/-- The nodes of well-formed trees have lists of children. -/
theorem allHaveLists_of_allWellFormed : ∀ ns : List Node, allWellFormed ns = true →
    allHaveLists ns = true
  | [], _ => by rw [allHaveLists]
  | n :: rest, h => by
    rw [allWellFormed, Bool.and_eq_true] at h
    rw [allHaveLists, hasLists_of_wellFormed n h.1, allHaveLists_of_allWellFormed rest h.2]
    rfl

end

end Node

namespace Render

/-! ## Writing reframed trees -/

/-- Two lists are written one after the other. -/
theorem nodes_append (form : Form) (replace : List Node → Except Fault String) (ns ms : List Node) :
    nodes form (fun _ => .keep) replace (ns ++ ms) = do
      let front ← nodes form (fun _ => .keep) replace ns
      let back ← nodes form (fun _ => .keep) replace ms
      return front ++ back := by
  induction ns with
  | nil =>
    rw [List.nil_append, nodes]
    cases nodes form (fun _ => .keep) replace ms with
    | error fault => rfl
    | ok back => exact congrArg Except.ok String.empty_append.symm
  | cons n rest ih =>
    rw [List.cons_append, nodes_cons, nodes_cons, ih]
    cases node form (fun _ => .keep) replace n with
    | error fault => rfl
    | ok first =>
      cases nodes form (fun _ => .keep) replace rest with
      | error fault => rfl
      | ok others =>
        cases nodes form (fun _ => .keep) replace ms with
        | error fault => rfl
        | ok back => exact congrArg Except.ok (String.append_assoc ..).symm

/-- A root with texts at its ends is written as these texts around what is written for the nodes
between them. -/
theorem node_root_between (form : Form) (replace : List Node → Except Fault String)
    (before after : String) (ns : List Node) :
    node form (fun _ => .keep) replace
        (Node.root (Node.text before :: (ns ++ [Node.text after]))) = do
      let inner ← nodes form (fun _ => .keep) replace ns
      return form.text before ++ inner ++ form.text after := by
  have hlast : nodes form (fun _ => .keep) replace [Node.text after] = .ok (form.text after) := by
    rw [nodes_cons, node_of_text? form replace (Node.text?_text after), nodes]
    exact congrArg Except.ok String.append_empty
  have hroot : node form (fun _ => .keep) replace
      (Node.root (Node.text before :: (ns ++ [Node.text after]))) =
        nodes form (fun _ => .keep) replace (Node.text before :: (ns ++ [Node.text after])) := rfl
  rw [hroot, nodes_cons, node_of_text? form replace (Node.text?_text before), nodes_append, hlast]
  cases nodes form (fun _ => .keep) replace ns with
  | error fault => rfl
  | ok inner => exact congrArg Except.ok (String.append_assoc ..).symm

section Frames

variable (form : Form) {react : Node → Reaction} (replace others : List Node → Except Fault String)

mutual

/-- A tree is written under a handler that frames nodes as the reframed tree is without one. -/
theorem node_reframed (hreact : ∀ m, (react m).isFrame = true) : ∀ n : Node, n.hasLists = true →
    node form react replace n = node form (fun _ => .keep) others (n.reframed react)
  | .stray value, _ => by rw [Node.reframed, node, node]
  | .node head info children, h => by
    rw [Node.hasLists, Bool.and_eq_true, Bool.not_eq_true'] at h
    obtain ⟨hbare, hchildren⟩ := h
    have hinner := nodes_reframedAll hreact children hchildren
    have hframe := hreact (.node head info children)
    cases hreaction : react (.node head info children) with
    | fail fault => simp [hreaction, Reaction.isFrame] at hframe
    | replace nodes => simp [hreaction, Reaction.isFrame] at hframe
    | keep =>
      -- The node is written by its head and its children, of which there are as many as before.
      have hempty := Node.isEmpty_reframedAll react children
      rw [Node.reframed, hreaction, node, hreaction, node, hinner, hempty]
    | children =>
      rw [Node.reframed, hreaction, node, hreaction, hbare, hinner]
      rfl
    | wrap before after =>
      rw [Node.reframed, hreaction, node_root_between, node, hreaction, hbare, hinner]

/-- Trees are written under a handler that frames nodes as the reframed trees are without one. -/
theorem nodes_reframedAll (hreact : ∀ m, (react m).isFrame = true) :
    ∀ ns : List Node, Node.allHaveLists ns = true → nodes form react replace ns =
      nodes form (fun _ => .keep) others (Node.reframedAll react ns)
  | [], _ => by rw [Node.reframedAll, nodes, nodes]
  | n :: rest, h => by
    rw [Node.allHaveLists, Bool.and_eq_true] at h
    rw [Node.reframedAll, nodes, nodes, node_reframed hreact n h.1, nodes_reframedAll hreact rest h.2]

end

end Frames

end Render

/-! ## Main result -/

/-- In either form, a tree whose nodes have lists of children is written under a handler that frames
nodes as the reframed tree is without one. This does not depend on the limit on replacements, as none is
made, and a well-formed tree can be written. -/
theorem render_reframed (form : Form) {react : Node → Reaction}
    (hreact : ∀ m, (react m).isFrame = true) {n : Node} (hn : n.hasLists = true) :
    render form (.function react) [n] = render form .none [n.reframed react] ∧
      (∀ limit, Render.upTo form react limit [n] = render form (.function react) [n]) ∧
      (n.wellFormed = true → ∃ s, render form (.function react) [n] = .ok s) := by
  have hlist : Node.allHaveLists [n] = true := by simp [Node.allHaveLists, hn]
  have hlimit (limit : Nat) :
      Render.upTo form react limit [n] = render form .none [n.reframed react] := by
    cases limit with
    | zero => exact Render.nodes_reframedAll form _ _ hreact [n] hlist
    | succ limit => exact Render.nodes_reframedAll form _ _ hreact [n] hlist
  have hrender : render form (.function react) [n] = render form .none [n.reframed react] :=
    hlimit Render.replacementLimit
  refine ⟨hrender, fun limit => (hlimit limit).trans hrender.symm, fun hwellFormed => ?_⟩
  have hreframed : Node.allWellFormed [n.reframed react] = true := by
    simp [Node.allWellFormed, Node.wellFormed_reframed react n hwellFormed]
  exact ⟨_, hrender.trans (Render.render_of_allWellFormed form hreframed)⟩

/-- Puts stars around what is emphasised, and leaves out the tags of line breaks. -/
def starEmphasis : Node → Reaction
  | .node (.element "em" _) _ _ => .wrap "*" "*"
  | .node (.element "br" _) _ _ => .children
  | _ => .keep

/-- Emphasis inside of emphasis, with a line break between. -/
def nestedEmphasis : Node :=
  Node.element "p" [] [Node.element "em" [] [Node.text "a & b", Node.element "br" [] [],
    Node.element "em" [] [Node.text "c"]]]

/-- Stars are put around emphasis at any depth. -/
theorem render_reframed_nestedEmphasis :
    (∀ m, (starEmphasis m).isFrame = true) ∧ nestedEmphasis.hasLists = true ∧
      nestedEmphasis.wellFormed = true ∧
      render .html (.function starEmphasis) [nestedEmphasis] =
        render .html .none [nestedEmphasis.reframed starEmphasis] ∧
      (∀ limit, Render.upTo .html starEmphasis limit [nestedEmphasis] =
        render .html (.function starEmphasis) [nestedEmphasis]) ∧
      ∃ s, render .html (.function starEmphasis) [nestedEmphasis] = .ok s := by
  have hframe : ∀ m, (starEmphasis m).isFrame = true := by
    intro m
    unfold starEmphasis
    split <;> rfl
  have hlists : nestedEmphasis.hasLists = true := by decide
  have hwellFormed : nestedEmphasis.wellFormed = true := by decide
  obtain ⟨hrender, hlimit, hok⟩ := render_reframed .html hframe hlists
  exact ⟨hframe, hlists, hwellFormed, hrender, hlimit, hok hwellFormed⟩

end Transclude
