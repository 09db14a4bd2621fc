import Transclude.Proofs.Tree.Regular
import Transclude.Render.Markup

/-!
# What is written for a tree

A well-formed tree can always be written without a handler, and what is written for a node is put
together from what is written for its children: `nodes_of_allWellFormed` gives it for a list of trees.
-/

namespace Transclude.Render

/-- The start tag of an element with a tag and properties that fit together. -/
def opening (tag : String) (properties : Fields) : String :=
  "<" ++ tag ++ (if attributes properties = "" then "" else " " ++ attributes properties) ++ ">"

mutual

/-- What is written for a well-formed tree. -/
def written (form : Form) : Node → String
  | .node .root _ children => writtenAll form children
  | .node (.element tag properties) _ children =>
    opening tag properties ++
      if voidTags.contains tag && children.isEmpty then ""
      else writtenAll form children ++ ("</" ++ tag ++ ">")
  | .node (.text s) _ _ => form.text s
  | .node (.comment s) _ _ => "<!--" ++ s ++ "-->"
  | .node .doctype _ _ => "<!doctype html>"
  | .node (.other _ _) info children =>
    rawText (info.extra.get? "value") ++ writtenAll form children
  | .node (.irregular _) _ _ => ""
  | .stray _ => ""

/-- What is written for a list of well-formed trees. -/
def writtenAll (form : Form) : List Node → String
  | [] => ""
  | n :: rest => written form n ++ writtenAll form rest

end

/-- An element that fits together has its start tag. -/
theorem startTag_element (tag : String) (properties : Fields) :
    startTag (.element tag properties) = .ok (opening tag properties) := by
  cases properties with
  | nil => simp [startTag, opening, Head.properties, Head.tag, Head.traits, Value.holds, attributes,
      Value.plain]
  | cons property rest => rfl

variable (form : Form) (replace : List Node → Except Fault String)

mutual

/-- A well-formed tree can be written. -/
theorem node_of_wellFormed : ∀ n : Node, n.wellFormed = true →
    node form (fun _ => .keep) replace n = .ok (written form n)
  | .stray value, h => by simp [Node.wellFormed] at h
  | .node head info children, h => by
    obtain ⟨hregular, -, hchildren⟩ := Node.wellFormed_node.mp h
    have hinner := nodes_of_allWellFormed children hchildren
    rw [node, Head.isBare_of_isRegular hregular]
    cases head with
    | irregular traits => simp [Head.isRegular] at hregular
    | root => exact hinner
    | element tag properties =>
      have hkind : (Head.element tag properties).kinds.single? = some .element := rfl
      have hvoid : isVoid (Head.element tag properties).tag = .ok (voidTags.contains tag) := rfl
      rw [hkind, startTag_element, hvoid]
      change (if (voidTags.contains tag && children.isEmpty) = true then
          Except.ok (opening tag properties)
        else do
          let inner ← nodes form (fun _ => .keep) replace children
          return opening tag properties ++ inner ++ ("</" ++ tag ++ ">")) = _
      rw [hinner, written]
      split
      · rw [String.append_empty]
      · exact congrArg Except.ok (String.append_assoc ..)
    | text s => rfl
    | comment s => rfl
    | doctype => rfl
    | other type listed =>
      change (do
        let inner ← nodes form (fun _ => .keep) replace children
        return rawText (info.extra.get? "value") ++ inner) = _
      rw [hinner, written]
      rfl

/-- A list of well-formed trees can be written. -/
theorem nodes_of_allWellFormed : ∀ ns : List Node, Node.allWellFormed ns = true →
    nodes form (fun _ => .keep) replace ns = .ok (writtenAll form ns)
  | [], _ => rfl
  | n :: rest, h => by
    rw [Node.allWellFormed, Bool.and_eq_true] at h
    rw [nodes, node_of_wellFormed n h.1, nodes_of_allWellFormed rest h.2, writtenAll]
    rfl

end

/-- Without a handler, well-formed trees are rendered as they are written. -/
theorem render_of_allWellFormed {ns : List Node} (h : Node.allWellFormed ns = true) :
    render form .none ns = .ok (writtenAll form ns) :=
  nodes_of_allWellFormed form _ ns h

end Transclude.Render
