import Transclude.Link.Group
import Transclude.Proofs.Tree.Merge

/-!
# Cutting and mending

The parts of a text that is cut at its delimiters make up the text again. So a list of nodes whose
texts are cut and then written out and merged is the list as it was merged before, except that a
text with a delimiter is a new text of the same value: `mergeText_plain_items`. Dividing the items
into groups then leaves every node in one of these (`flatMap_nodes_groupsFrom`).
-/

namespace Transclude

namespace Link

/-! ## One text -/

namespace Token

/-- The characters of a part. -/
def chars : Token → List Char
  | .text cs => cs
  | .delimiter d => d.text.toList

/-- A part as a text. -/
def written (t : Token) : String := String.ofList t.chars

/-- A character in front of a text that is cut comes first. -/
theorem flatMap_chars_prependChar (c : Char) (tokens : List Token) :
    (prependChar c tokens).flatMap chars = c :: tokens.flatMap chars := by
  unfold prependChar
  split <;> simp [chars]

/-- The parts of a text make up the text. -/
theorem flatMap_chars_cut (cs : List Char) : (cut cs).flatMap chars = cs := by
  induction cs using cut.induct with
  | case1 rest ih => simp [cut, chars, Delimiter.text, ih]
  | case2 rest ih => simp [cut, chars, Delimiter.text, ih]
  | case3 c rest hstart hstop ih =>
    rw [cut, flatMap_chars_prependChar, ih]
    · exact hstart
    · exact hstop
  | case4 => simp [cut]

/-- The parts of a text, as texts, make up the text. -/
theorem join_written_cut (s : String) : String.join ((cut s.toList).map written) = s := by
  apply String.toList_injective
  rw [String.toList_join, List.flatMap_map]
  simpa [written] using flatMap_chars_cut s.toList

end Token

/-! ## Items -/

/-- An item written out as a node. -/
def Item.plain : Item → Node
  | .node n => n
  | .delimiter d => Node.text d.text

/-- A part of a text is written out as a text. -/
theorem plain_item (t : Token) : t.item.plain = Node.text t.written := by
  cases t with
  | text cs => rfl
  | delimiter d => simp [Token.item, Item.plain, Token.written, Token.chars]

/-- Whether a text has a delimiter. -/
def hasDelimiter (s : String) : Bool := (Token.cut s.toList).any Token.isDelimiter

/-- A node as it is after its text was cut and mended. A text with a delimiter is then a new
text. -/
def refresh (n : Node) : Node :=
  match n.text? with
  | some s => if hasDelimiter s then Node.text s else n
  | none => n

/-- Whether a node is a text that is cut, as it has a delimiter. -/
def isCut (n : Node) : Bool := n.text?.any hasDelimiter

/-- A node that is not cut stays. -/
theorem refresh_of_not_isCut {n : Node} (h : isCut n = false) : refresh n = n := by
  unfold isCut at h
  unfold refresh
  cases htext : n.text? with
  | none => rfl
  | some s =>
    have hd : hasDelimiter s = false := by simpa [htext] using h
    simp [hd]

/-- A node that is no text stays. -/
theorem refresh_of_text?_eq_none {n : Node} (h : n.text? = none) : refresh n = n :=
  refresh_of_not_isCut (by simp [isCut, h])

/-- A text that is cut becomes a new text. -/
theorem refresh_of_isCut {n : Node} {s : String} (htext : n.text? = some s)
    (h : isCut n = true) : refresh n = Node.text s := by
  have hd : hasDelimiter s = true := by simpa [isCut, htext] using h
  simp [refresh, htext, hd]

/-- A node keeps its text when it is cut and mended. -/
theorem text?_refresh (n : Node) : (refresh n).text? = n.text? := by
  unfold refresh
  cases h : n.text? with
  | none => exact h
  | some s =>
    dsimp only
    split
    · exact Node.text?_text s
    · exact h

/-- A node that is not a text is one item. -/
theorem itemsOf_of_text?_eq_none {n : Node} (h : n.text? = none) : itemsOf n = [.node n] := by
  unfold itemsOf
  rw [h]

/-- A text without a delimiter is one item. -/
theorem itemsOf_of_no_delimiter {n : Node} {s : String} (h : n.text? = some s)
    (hd : hasDelimiter s = false) : itemsOf n = [.node n] := by
  unfold hasDelimiter at hd
  simp [itemsOf, h, hd]

/-- A text with a delimiter is as many items as it has parts. -/
theorem itemsOf_of_hasDelimiter {n : Node} {s : String} (h : n.text? = some s)
    (hd : hasDelimiter s = true) : itemsOf n = (Token.cut s.toList).map Token.item := by
  unfold hasDelimiter at hd
  simp [itemsOf, h, hd]

/-- Sound nodes have no fault that keeps them from being cut. -/
theorem cutFault?_of_isSound {ns : List Node} (h : ∀ n ∈ ns, n.isSound = true) :
    cutFault? ns = none := by
  induction ns with
  | nil => rfl
  | cons n rest ih =>
    have hn := h n (by simp)
    have hrest := ih fun m hm => h m (by simp [hm])
    cases n with
    | stray value => exact absurd hn (Node.not_isSound_stray value)
    | node head info children => simp [cutFault?, Node.isSound_node.mp hn, hrest]

/-- Nodes that are sound can be cut. -/
theorem tokenize_of_isSound {ns : List Node} (h : ∀ n ∈ ns, n.isSound = true) :
    tokenize ns = .ok (items ns) := by
  unfold tokenize
  rw [cutFault?_of_isSound h]

/-- The items of a list are its nodes and new texts. -/
theorem mem_items {n : Node} {ns : List Node} (h : Item.node n ∈ items ns) :
    n ∈ ns ∨ ∃ s, n = Node.text s := by
  obtain ⟨m, hm, hitem⟩ := List.mem_flatMap.mp h
  cases htext : m.text? with
  | none =>
    rw [itemsOf_of_text?_eq_none htext, List.mem_singleton, Item.node.injEq] at hitem
    exact .inl (hitem ▸ hm)
  | some s =>
    cases hd : hasDelimiter s with
    | false =>
      rw [itemsOf_of_no_delimiter htext hd, List.mem_singleton, Item.node.injEq] at hitem
      exact .inl (hitem ▸ hm)
    | true =>
      rw [itemsOf_of_hasDelimiter htext hd] at hitem
      obtain ⟨t, -, ht⟩ := List.mem_map.mp hitem
      cases t with
      | text cs =>
        rw [Token.item, Item.node.injEq] at ht
        exact .inr ⟨_, ht.symm⟩
      | delimiter d => simp [Token.item] at ht

/-! ## Mending -/

/-- The items of a node are put in front of merged nodes as the node with its text mended is. -/
theorem foldr_prependMerged_itemsOf (n : Node) (ms : List Node) :
    ((itemsOf n).map Item.plain).foldr Node.prependMerged ms =
      Node.prependMerged (refresh n) ms := by
  cases htext : n.text? with
  | none =>
    rw [itemsOf_of_text?_eq_none htext, refresh_of_text?_eq_none htext]
    rfl
  | some s =>
    cases hd : hasDelimiter s with
    | false =>
      have hn : isCut n = false := by simpa [isCut, htext] using hd
      rw [itemsOf_of_no_delimiter htext hd, refresh_of_not_isCut hn]
      rfl
    | true =>
      have hn : refresh n = Node.text s :=
        refresh_of_isCut htext (by simpa [isCut, htext] using hd)
      have hne : (Token.cut s.toList).map Token.written ≠ [] := by
        intro hnil
        rw [List.map_eq_nil_iff] at hnil
        simp [hasDelimiter, hnil] at hd
      -- The parts of the text are new texts, and they are joined to the whole text.
      have hplain : (itemsOf n).map Item.plain =
          ((Token.cut s.toList).map Token.written).map Node.text := by
        rw [itemsOf_of_hasDelimiter htext hd]
        simp [plain_item]
      rw [hplain, Node.foldr_prependMerged_texts hne, Token.join_written_cut, hn]

/-- Nodes that are cut, written out and merged are the nodes with their texts mended and merged. -/
theorem mergeText_map_plain_items (ns : List Node) :
    Node.mergeText ((items ns).map Item.plain) = Node.mergeText (ns.map refresh) := by
  induction ns with
  | nil => rfl
  | cons n rest ih =>
    have hitems : items (n :: rest) = itemsOf n ++ items rest := List.flatMap_cons
    rw [hitems, List.map_append, Node.mergeText_append, ih, List.map_cons, Node.mergeText_cons,
      foldr_prependMerged_itemsOf]

/-- Texts that are apart are apart after they are cut and mended. -/
theorem apart_map_refresh {ns : List Node} (h : Node.Apart ns) : Node.Apart (ns.map refresh) := by
  unfold Node.Apart at h ⊢
  rw [List.isChain_map]
  refine h.imp fun m n hmn => ?_
  rw [text?_refresh, text?_refresh]
  exact hmn

/-- Nodes whose texts are apart are the same after they are cut and mended, but for new texts. -/
theorem mergeText_plain_items {ns : List Node} (h : Node.Apart ns) :
    Node.mergeText ((items ns).map Item.plain) = ns.map refresh := by
  rw [mergeText_map_plain_items, Node.mergeText_of_apart (apart_map_refresh h)]

/-! ## Groups -/

/-- The node of an item, if it is one. -/
def Item.node? : Item → Option Node
  | .node n => some n
  | .delimiter _ => none

/-- A delimiter is no node. -/
theorem filterMap_node?_delimiter (d : Delimiter) (is : List Item) :
    (.delimiter d :: is).filterMap Item.node? = is.filterMap Item.node? := rfl

/-- Every node is in one group. -/
theorem flatMap_nodes_groupsFrom (pos start : Nat) (opened : Bool) (nodes : List Node)
    (is : List Item) : (groupsFrom pos start opened nodes is).flatMap Group.nodes =
      nodes ++ is.filterMap Item.node? := by
  induction is generalizing pos start opened nodes with
  | nil => simp [groupsFrom]
  | cons item rest ih =>
    cases item with
    | node n => simpa [groupsFrom, Item.node?] using ih (pos + 1) start opened (nodes ++ [n])
    | delimiter d =>
      rw [groupsFrom_delimiter, List.flatMap_cons, ih, filterMap_node?_delimiter, List.nil_append]

/-- The nodes of the groups are those among the items. -/
theorem exists_mem_groups {n : Node} {is : List Item} :
    (∃ g ∈ groups is, n ∈ g.nodes) ↔ .node n ∈ is := by
  have hnode : (∃ item ∈ is, item.node? = some n) ↔ .node n ∈ is := by
    refine ⟨fun ⟨item, hitem, hn⟩ => ?_, fun h => ⟨_, h, rfl⟩⟩
    cases item with
    | node m => exact Option.some.inj hn ▸ hitem
    | delimiter d => exact absurd hn (by simp [Item.node?])
  rw [← List.mem_flatMap, groups, flatMap_nodes_groupsFrom, List.nil_append, List.mem_filterMap, hnode]

/-- The nodes of a group are among the items. -/
theorem mem_of_mem_groups {n : Node} {is : List Item} {g : Group} (hg : g ∈ groups is)
    (hn : n ∈ g.nodes) : .node n ∈ is :=
  exists_mem_groups.mp ⟨g, hg, hn⟩

end Link

end Transclude
