import Transclude.Proofs.Link.Reference

/-!
# Cutting and grouping divide exactly

Nothing is lost when the texts of a list of nodes are cut at the delimiters and the items are divided
into groups, and nothing is there twice. `CutFrom` says so of the items: no text among them has a
delimiter in it, and written out and merged they are the merged nodes. `Partition` says so of the
groups: they stand in order between the delimiters, each knows the delimiters on its two sides, and
written out one after the other they are the items.

The proof follows the reading of the items from left to right. `OpenAfter` is what holds of the group
that is open when some items have been read: it is kept when a node is read, a delimiter closes the
group and opens the next one, and so every group that comes out has its place (`placed_of_mem`).
-/

namespace Transclude

namespace Link

/-! ## Items -/

/-- What a list of nodes is cut to. -/
structure CutFrom (ns : List Node) (is : List Item) : Prop where
  /-- No text among the items has a delimiter in it. -/
  lacks : ∀ n s, .node n ∈ is → n.text? = some s → Lacks s.toList
  /-- With their delimiters written out and their texts merged, the items are the merged nodes, where
  texts are told by their values. -/
  mends : ∃ mended merged, Node.merge (is.map Item.plain) = .ok mended ∧ Node.merge ns = .ok merged ∧
    mended.map Node.bareText = merged.map Node.bareText

/-- A node keeps its value when it is cut and mended. -/
theorem bareText_refresh (n : Node) : (refresh n).bareText = n.bareText := by
  cases htext : n.text? with
  | none => rw [refresh_of_text?_eq_none htext]
  | some s =>
    have hrefresh : (refresh n).text? = some s := by rw [text?_refresh, htext]
    rw [Node.bareText_of_text? hrefresh, Node.bareText_of_text? htext]

/-- The items of sound nodes are written out as sound nodes. -/
theorem isSound_of_mem_map_plain_items {ns : List Node} (h : ∀ n ∈ ns, n.isSound = true) :
    ∀ n ∈ (items ns).map Item.plain, n.isSound = true := by
  intro n hn
  obtain ⟨item, hitem, rfl⟩ := List.mem_map.mp hn
  cases item with
  | delimiter d => exact Node.isSound_text d.text
  | node m =>
    rcases mem_items hitem with hm | ⟨s, rfl⟩
    · exact h m hm
    · exact Node.isSound_text s

/-- The items of sound nodes are what the nodes are cut to. -/
theorem cutFrom_items {ns : List Node} (h : ∀ n ∈ ns, n.isSound = true) : CutFrom ns (items ns) where
  lacks n s hn hs := by
    have hcut := isCutText_of_mem_items (cutFault?_of_isSound h) hn (Node.isText_of_text? hs)
    rcases hcut with ⟨t, ht, hlacks⟩ | ⟨head, info, children, rfl, hnone, -⟩
    · obtain rfl : s = t := Option.some.inj (hs.symm.trans ht)
      exact hlacks
    · simp [hs] at hnone
  mends := by
    refine ⟨_, _, Node.merge_of_isSound (isSound_of_mem_map_plain_items h), Node.merge_of_isSound h, ?_⟩
    have hvalues : (ns.map refresh).map Node.bareText = ns.map Node.bareText := by
      rw [List.map_map]
      exact List.map_congr_left fun n _ => bareText_refresh n
    rw [mergeText_map_plain_items, Node.map_bareText_mergeText, hvalues, Node.map_bareText_mergeText]

/-! ## Groups -/

/-- Whether an item is a delimiter. -/
def Item.isDelimiter : Item → Bool
  | .node _ => false
  | .delimiter _ => true

/-- What it is for a group to stand in its place among items. -/
structure Group.Placed (is : List Item) (g : Group) : Prop where
  /-- The group does not end before it begins. -/
  start_le : g.start ≤ g.stop
  /-- The group ends within the items. -/
  stop_le : g.stop ≤ is.length
  /-- What stands between are the nodes of the group, and no delimiter. -/
  slice : is.extract g.start g.stop = g.nodes.map .node
  /-- The group is opened exactly if the item just before it is an opening delimiter. -/
  opened : g.opened = true ↔ 0 < g.start ∧ is[g.start - 1]? = some (.delimiter .start)
  /-- The group is closed exactly if the item just after it is a closing delimiter. -/
  closed : g.closed = true ↔ is[g.stop]? = some (.delimiter .stop)

/-- What it is for groups to divide items. -/
structure Partition (is : List Item) (gs : List Group) : Prop where
  /-- There is one group more than there are delimiters. -/
  length : gs.length = is.countP Item.isDelimiter + 1
  /-- Every group stands in its place. -/
  placed : ∀ g ∈ gs, g.Placed is
  /-- Every group ends before the next one begins. -/
  ordered : gs.Pairwise fun g h => g.stop < h.start
  /-- Written out with their delimiters put back, the groups are the items. -/
  restored : gs.flatMap Group.restore = is.map Item.plain

/-! ### The open group -/

/-- What holds of the open group when the items `before` have been read: it has the nodes from its
start on, and is opened exactly if an opening delimiter stands just before them. -/
structure OpenAfter (before : List Item) (start : Nat) (opened : Bool) (nodes : List Node) :
    Prop where
  /-- The group begins within the items. -/
  start_le : start ≤ before.length
  /-- The items from the start on are the nodes of the group. -/
  slice : before.drop start = nodes.map .node
  /-- The group is opened by the item just before it. -/
  opened : opened = true ↔ 0 < start ∧ before[start - 1]? = some (.delimiter .start)

namespace OpenAfter

variable {before : List Item} {start : Nat} {opened : Bool} {nodes : List Node}

/-- At first a group without delimiter is open. -/
theorem nil : OpenAfter [] 0 false [] where
  start_le := Nat.le_refl 0
  slice := rfl
  opened := by simp

/-- Items that follow do not change what stands just before the open group. -/
theorem getElem?_append (h : OpenAfter before start opened nodes) (rest : List Item) :
    opened = true ↔ 0 < start ∧ (before ++ rest)[start - 1]? = some (.delimiter .start) := by
  have hle := h.start_le
  rw [h.opened]
  refine and_congr_right fun hpos => ?_
  have hlt : start - 1 < before.length := by omega
  rw [List.getElem?_append_left hlt]

/-- The open group takes in a node. -/
theorem node (h : OpenAfter before start opened nodes) (n : Node) :
    OpenAfter (before ++ [.node n]) start opened (nodes ++ [n]) where
  start_le := by
    have hle := h.start_le
    simp only [List.length_append, List.length_singleton]
    omega
  slice := by
    rw [List.drop_append_of_le_length h.start_le, h.slice]
    simp
  opened := h.getElem?_append [.node n]

/-- After a delimiter the next group is open, and has no nodes yet. -/
theorem delimiter (before : List Item) (d : Delimiter) :
    OpenAfter (before ++ [.delimiter d]) (before.length + 1) (d == .start) [] where
  start_le := by simp
  slice := by
    rw [List.drop_eq_nil_of_le (by simp), List.map_nil]
  opened := by simp

/-- The open group has its place when it ends, if it is closed by what follows. -/
theorem placed (h : OpenAfter before start opened nodes) (rest : List Item) {closed : Bool}
    (hclosed : closed = true ↔ rest.head? = some (.delimiter .stop)) :
    Group.Placed (before ++ rest) ⟨start, before.length, opened, closed, nodes⟩ where
  start_le := h.start_le
  stop_le := by simp
  slice := by
    have hlength : (before.drop start).length = before.length - start := List.length_drop
    rw [List.extract_eq_take_drop, List.drop_append_of_le_length h.start_le, ← hlength,
      List.take_left, h.slice]
  opened := h.getElem?_append rest
  closed := by
    rw [hclosed, List.getElem?_append_right (Nat.le_refl _), Nat.sub_self, List.head?_eq_getElem?]

/-- Every group that comes out has its place: the open one when it ends, and those that begin after
it. -/
theorem placed_of_mem (h : OpenAfter before start opened nodes) {rest : List Item} {g : Group}
    (hg : g ∈ groupsFrom before.length start opened nodes rest) : g.Placed (before ++ rest) := by
  induction rest generalizing before start opened nodes with
  | nil =>
    obtain rfl := List.mem_singleton.mp hg
    exact h.placed [] (by simp)
  | cons item rest ih =>
    -- The item that is read goes over to those before it.
    have hread : before ++ item :: rest = before ++ [item] ++ rest := by simp
    have hlength : (before ++ [item]).length = before.length + 1 := by simp
    cases item with
    | node n =>
      rw [groupsFrom, ← hlength] at hg
      rw [hread]
      exact ih (h.node n) hg
    | delimiter d =>
      rw [groupsFrom_delimiter] at hg
      rcases List.mem_cons.mp hg with rfl | hlater
      · exact h.placed _ (by simp)
      · rw [← hlength] at hlater
        rw [hread]
        refine ih ?_ hlater
        rw [hlength]
        exact delimiter before d

end OpenAfter

/-! ### All groups -/

section Groups

variable (pos start : Nat) (opened : Bool) (nodes : List Node) (is : List Item)

/-- Every delimiter begins one more group. -/
theorem length_groupsFrom :
    (groupsFrom pos start opened nodes is).length = is.countP Item.isDelimiter + 1 := by
  induction is generalizing pos start opened nodes with
  | nil => rfl
  | cons item rest ih =>
    cases item with
    | node n =>
      rw [groupsFrom, ih, List.countP_cons_of_neg]
      simp [Item.isDelimiter]
    | delimiter d =>
      rw [groupsFrom_delimiter, List.length_cons, ih, List.countP_cons_of_pos]
      rfl

/-- No group begins before the open one. -/
theorem start_le_of_mem_groupsFrom (hstart : start ≤ pos) :
    ∀ g ∈ groupsFrom pos start opened nodes is, start ≤ g.start := by
  induction is generalizing pos start opened nodes with
  | nil => simp [groupsFrom]
  | cons item rest ih =>
    cases item with
    | node n => exact ih (pos + 1) start opened (nodes ++ [n]) (by omega)
    | delimiter d =>
      rw [groupsFrom_delimiter, List.forall_mem_cons]
      refine ⟨Nat.le_refl start, fun g hg => ?_⟩
      have hnext : pos + 1 ≤ g.start := ih (pos + 1) (pos + 1) (d == .start) [] (Nat.le_refl _) g hg
      omega

/-- The groups follow each other. -/
theorem pairwise_groupsFrom :
    (groupsFrom pos start opened nodes is).Pairwise fun g h => g.stop < h.start := by
  induction is generalizing pos start opened nodes with
  | nil => exact List.pairwise_singleton _ _
  | cons item rest ih =>
    cases item with
    | node n => exact ih (pos + 1) start opened (nodes ++ [n])
    | delimiter d =>
      rw [groupsFrom_delimiter, List.pairwise_cons]
      refine ⟨fun g hg => ?_, ih (pos + 1) (pos + 1) (d == .start) []⟩
      -- The open group ends before the delimiter, and all others begin after it.
      exact start_le_of_mem_groupsFrom (pos + 1) (pos + 1) (d == .start) [] rest (Nat.le_refl _) g hg

/-- Every delimiter is put back once: an opening one by the group after it, and a closing one by the
group before it. -/
theorem flatMap_restore_groupsFrom : (groupsFrom pos start opened nodes is).flatMap Group.restore =
    (if opened then [Node.text Delimiter.start.text] else []) ++ nodes ++ is.map Item.plain := by
  induction is generalizing pos start opened nodes with
  | nil => simp [groupsFrom, Group.restore]
  | cons item rest ih =>
    cases item with
    | node n =>
      rw [groupsFrom, ih]
      simp [Item.plain]
    | delimiter d =>
      rw [groupsFrom_delimiter, List.flatMap_cons, ih]
      cases d with
      | start => simp [Group.restore, Item.plain]
      | stop => simp [Group.restore, Item.plain]

end Groups

/-- The groups of items divide them. -/
theorem partition_groups (is : List Item) : Partition is (groups is) where
  length := length_groupsFrom 0 0 false [] is
  placed _ hg := OpenAfter.nil.placed_of_mem hg
  ordered := pairwise_groupsFrom 0 0 false [] is
  restored := flatMap_restore_groupsFrom 0 0 false [] is

/-! ## Main result -/

/-- Sound nodes can be cut, and are cut to items without delimiters in their texts that make up the
merged nodes; and whatever items there are, their groups divide them: one between any two delimiters,
each with its place and with the delimiters on its sides, and all of them together the items. -/
theorem tokenize_groups_partition {ns : List Node} (h : ∀ n ∈ ns, n.isSound = true) (is : List Item) :
    (∃ cut, tokenize ns = .ok cut ∧ CutFrom ns cut) ∧ Partition is (groups is) :=
  ⟨⟨items ns, tokenize_of_isSound h, cutFrom_items h⟩, partition_groups is⟩

/-- Three brackets in a row, a text that stands between two delimiters, and a closing delimiter that
nothing opens. -/
theorem tokenize_groups_partition_threeBrackets :
    (∀ n ∈ [Node.text "[[[", Node.text "a]] b", Node.text "]]"], n.isSound = true) ∧
      (∃ cut, tokenize [Node.text "[[[", Node.text "a]] b", Node.text "]]"] = .ok cut ∧
        CutFrom [Node.text "[[[", Node.text "a]] b", Node.text "]]"] cut) ∧
      Partition [.delimiter .start, .node (Node.text "["), .delimiter .start, .delimiter .stop]
        (groups [.delimiter .start, .node (Node.text "["), .delimiter .start, .delimiter .stop]) :=
  have hsound : ∀ n ∈ [Node.text "[[[", Node.text "a]] b", Node.text "]]"], n.isSound = true := by
    decide
  ⟨hsound, tokenize_groups_partition hsound _⟩

end Link

end Transclude
