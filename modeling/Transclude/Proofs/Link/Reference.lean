import Transclude.Proofs.Link.Signs
import Transclude.Proofs.Tree.Separate
import Mathlib.Data.List.TakeWhile

/-!
# What a link reference can hold

Nodes that are merged and cut at the delimiters are divided into groups, in which no two text nodes
are adjacent and no text has a delimiter: `separate_of_mem_groups` and `isCutText_of_mem_groups`. A
reference that is read from such a group is well formed in the sense of `LinkReference.IsWellFormed`:
`isWellFormed_of_reference?`.
-/

namespace Transclude

namespace Link

/-! ## Texts without delimiters -/

/-- Whether a text has no delimiter at any place. -/
def Lacks (cs : List Char) : Prop := ∀ d : Delimiter, ¬ d.text.toList <:+: cs

/-- A part of a text without delimiters has none. -/
theorem Lacks.infix {cs ds : List Char} (h : Lacks cs) (hds : ds <:+: cs) : Lacks ds :=
  fun d hd => h d (hd.trans hds)

/-- A delimiter is one character, written twice. -/
theorem exists_text_eq (d : Delimiter) : ∃ c, d.text.toList = [c, c] ∧ (c = '[' ∨ c = ']') := by
  cases d with
  | start => exact ⟨'[', rfl, .inl rfl⟩
  | stop => exact ⟨']', rfl, .inr rfl⟩

/-- A text is without delimiters if the text after its first character is, and no delimiter begins
with that character. -/
theorem Lacks.cons {c : Char} {cs : List Char} (h : Lacks cs)
    (hstart : ∀ rest, c = '[' → cs = '[' :: rest → False)
    (hstop : ∀ rest, c = ']' → cs = ']' :: rest → False) : Lacks (c :: cs) := by
  intro d hd
  rcases List.infix_cons_iff.mp hd with hprefix | hwithin
  · obtain ⟨e, heq, hbracket⟩ := exists_text_eq d
    rw [heq] at hprefix
    obtain ⟨rest, hrest⟩ := hprefix
    obtain ⟨rfl, hcs⟩ : e = c ∧ e :: rest = cs := by simpa using hrest
    rcases hbracket with rfl | rfl
    · exact hstart rest rfl hcs.symm
    · exact hstop rest rfl hcs.symm
  · exact h d hwithin

/-- The empty text has no delimiters. -/
theorem lacks_nil : Lacks [] := by
  intro d hd
  obtain ⟨c, heq, -⟩ := exists_text_eq d
  rw [heq] at hd
  simp at hd

namespace Token

/-- A text that is cut at its delimiters has none in its parts. -/
theorem lacks_of_mem_cut {cs part : List Char} (h : .text part ∈ cut cs) : Lacks part := by
  induction cs using cut.induct generalizing part with
  | case1 rest ih => exact ih (by simpa [cut] using h)
  | case2 rest ih => exact ih (by simpa [cut] using h)
  | case3 c rest hstart hstop ih =>
    have hchars := flatMap_chars_cut rest
    rw [cut] at h
    · unfold prependChar at h
      split at h
      · next ds tokens heq =>
        rw [heq] at hchars ih
        rcases List.mem_cons.mp h with hfirst | hlater
        · obtain rfl : part = c :: ds := by simpa using hfirst
          -- The part goes on with the text after the character, where no delimiter begins.
          refine Lacks.cons (ih (by simp)) (fun others hc hds => ?_) fun others hc hds => ?_
          · exact hstart _ hc (by rw [← hchars, hds]; rfl)
          · exact hstop _ hc (by rw [← hchars, hds]; rfl)
        · exact ih (by simp [hlater])
      · rcases List.mem_cons.mp h with hfirst | hlater
        · obtain rfl : part = [c] := by simpa using hfirst
          exact Lacks.cons lacks_nil (fun _ _ => by simp) fun _ _ => by simp
        · exact ih hlater
    · exact hstart
    · exact hstop
  | case4 => simp [cut] at h

/-- Two parts of a text that is cut are not side by side. -/
theorem isChain_cut (cs : List Char) :
    (cut cs).IsChain fun t u => t.isDelimiter = true ∨ u.isDelimiter = true := by
  have hcons {d : Delimiter} {tokens : List Token}
      (h : tokens.IsChain fun t u => t.isDelimiter = true ∨ u.isDelimiter = true) :
      (.delimiter d :: tokens).IsChain fun t u => t.isDelimiter = true ∨ u.isDelimiter = true := by
    cases tokens with
    | nil => exact List.isChain_singleton _
    | cons t rest => exact List.isChain_cons_cons.mpr ⟨.inl rfl, h⟩
  induction cs using cut.induct with
  | case1 rest ih =>
    rw [cut]
    exact hcons ih
  | case2 rest ih =>
    rw [cut]
    exact hcons ih
  | case3 c rest hstart hstop ih =>
    rw [cut]
    · cases hrest : cut rest with
      | nil => exact List.isChain_singleton _
      | cons t tokens =>
        rw [hrest] at ih
        cases t with
        | text ds =>
          -- The character joins the part that follows.
          cases tokens with
          | nil => exact List.isChain_singleton _
          | cons u others =>
            obtain ⟨hdu, hothers⟩ := List.isChain_cons_cons.mp ih
            exact List.isChain_cons_cons.mpr ⟨hdu, hothers⟩
        | delimiter d => exact List.isChain_cons_cons.mpr ⟨.inr rfl, ih⟩
    · exact hstart
    · exact hstop
  | case4 => simp [cut]

end Token

/-- A text that is not cut has no delimiters. -/
theorem lacks_of_not_hasDelimiter {s : String} (h : hasDelimiter s = false) : Lacks s.toList := by
  by_cases hnil : s.toList = []
  · rw [hnil]
    exact lacks_nil
  · have hcut := cut_of_no_delimiter hnil h
    exact Token.lacks_of_mem_cut (by rw [hcut]; simp)

/-! ## Items -/

/-- Whether a node, if it is a text node, has no delimiter: its text has none, or its value is no text
and counts as empty. -/
def IsCutText (n : Node) : Prop := n.isText = true →
  (∃ s, n.text? = some s ∧ Lacks s.toList) ∨
    ∃ head info children, n = .node head info children ∧ n.text? = none ∧ head.value.holds = false

/-- A text node that is no text counts as empty if the nodes can be cut. -/
theorem holds_of_cutFault? {ns : List Node} (h : cutFault? ns = none) {head : Head} {info : Info}
    {children : List Node} (hmem : .node head info children ∈ ns)
    (hodd : (Node.node head info children).isOddText = true) : head.value.holds = false := by
  induction ns with
  | nil => simp at hmem
  | cons n rest ih =>
    cases n with
    | stray value => simp [cutFault?] at h
    | node head' info' children' =>
      rw [cutFault?] at h
      split at h
      · simp at h
      · next hno =>
        rcases List.mem_cons.mp hmem with heq | hlater
        · obtain ⟨rfl, rfl, rfl⟩ : head = head' ∧ info = info' ∧ children = children' := by
            simpa using heq
          simpa [hodd] using hno
        · exact ih h hlater

/-- The text nodes among the items of a list have no delimiters. -/
theorem isCutText_of_mem_items {ns : List Node} (hcut : cutFault? ns = none) {n : Node}
    (h : .node n ∈ items ns) : IsCutText n := by
  intro htext
  obtain ⟨m, hm, hitem⟩ := List.mem_flatMap.mp h
  cases hmtext : m.text? with
  | none =>
    rw [itemsOf_of_text?_eq_none hmtext, List.mem_singleton, Item.node.injEq] at hitem
    subst hitem
    cases n with
    | stray value => simp [Node.isText] at htext
    | node head info children =>
      refine .inr ⟨head, info, children, rfl, hmtext, holds_of_cutFault? hcut hm ?_⟩
      simp [Node.isOddText, htext, hmtext]
  | some s =>
    cases hd : hasDelimiter s with
    | false =>
      rw [itemsOf_of_no_delimiter hmtext hd, List.mem_singleton, Item.node.injEq] at hitem
      exact .inl ⟨s, hitem ▸ hmtext, lacks_of_not_hasDelimiter hd⟩
    | true =>
      rw [itemsOf_of_hasDelimiter hmtext hd] at hitem
      obtain ⟨t, ht, heq⟩ := List.mem_map.mp hitem
      cases t with
      | delimiter d => simp [Token.item] at heq
      | text cs =>
        rw [Token.item, Item.node.injEq] at heq
        refine .inl ⟨String.ofList cs, heq ▸ Node.text?_text _, ?_⟩
        rw [String.toList_ofList]
        exact Token.lacks_of_mem_cut ht

/-- Whether an item is a text node. -/
def Item.isText : Item → Bool
  | .node n => n.isText
  | .delimiter _ => false

/-- Whether no two text nodes are side by side among items. -/
def SeparateItems (is : List Item) : Prop :=
  is.IsChain fun i j => i.isText = false ∨ j.isText = false

/-- The parts of a text that is cut are not side by side among its items. -/
theorem separateItems_map_item {tokens : List Token}
    (h : tokens.IsChain fun t u => t.isDelimiter = true ∨ u.isDelimiter = true) :
    SeparateItems (tokens.map Token.item) := by
  have hitem : ∀ t : Token, t.isDelimiter = true → t.item.isText = false := by
    intro t ht
    cases t with
    | text cs => simp [Token.isDelimiter] at ht
    | delimiter d => rfl
  exact List.isChain_map_of_isChain Token.item (fun t u htu => htu.imp (hitem t) (hitem u)) h

/-- The items of one node are separate. -/
theorem separateItems_itemsOf (n : Node) : SeparateItems (itemsOf n) := by
  unfold itemsOf
  split
  · exact List.isChain_singleton _
  · next s _ =>
    dsimp only
    split
    · exact separateItems_map_item (Token.isChain_cut s.toList)
    · exact List.isChain_singleton _

/-- The items of a node that is no text node are no texts. -/
theorem isText_of_mem_itemsOf {n : Node} (h : n.isText = false) {item : Item}
    (hitem : item ∈ itemsOf n) : item.isText = false := by
  rw [itemsOf_of_text?_eq_none (Node.text?_eq_none_of_isText h), List.mem_singleton] at hitem
  rw [hitem]
  exact h

/-- Every node has items. -/
theorem itemsOf_ne_nil (n : Node) : itemsOf n ≠ [] := by
  cases htext : n.text? with
  | none => simp [itemsOf_of_text?_eq_none htext]
  | some s =>
    cases hd : hasDelimiter s with
    | false => simp [itemsOf_of_no_delimiter htext hd]
    | true =>
      rw [itemsOf_of_hasDelimiter htext hd]
      intro hnil
      rw [List.map_eq_nil_iff] at hnil
      simp [hasDelimiter, hnil] at hd

/-- Text nodes that are not side by side are not so when they are cut. -/
theorem separateItems_items {ns : List Node} (h : Node.Separate ns) : SeparateItems (items ns) := by
  unfold Node.Separate at h
  induction ns with
  | nil => exact List.isChain_nil
  | cons n rest ih =>
    have hitems : items (n :: rest) = itemsOf n ++ items rest := List.flatMap_cons
    rw [hitems]
    refine List.isChain_append.mpr ⟨separateItems_itemsOf n, ih h.tail, ?_⟩
    intro i hi j hj
    cases rest with
    | nil => simp [items] at hj
    | cons m others =>
      -- The first item after those of the node is one of the next node.
      have hnext : items (m :: others) = itemsOf m ++ items others := List.flatMap_cons
      have hjm : j ∈ itemsOf m := by
        rw [hnext, List.head?_append_of_ne_nil _ (itemsOf_ne_nil m)] at hj
        exact List.mem_of_head? hj
      rcases (List.isChain_cons_cons.mp h).1 with hn | hm
      · exact .inl (isText_of_mem_itemsOf hn (List.mem_of_getLast? hi))
      · exact .inr (isText_of_mem_itemsOf hm hjm)

/-! ## Groups -/

/-- The nodes of a group stand one after the other among the items. -/
theorem infix_of_mem_groupsFrom {g : Group} {pos start : Nat} {opened : Bool} {nodes : List Node}
    {is : List Item} (h : g ∈ groupsFrom pos start opened nodes is) :
    g.nodes.map .node <:+: nodes.map .node ++ is := by
  induction is generalizing pos start opened nodes with
  | nil =>
    obtain rfl := List.mem_singleton.mp h
    exact (List.prefix_append _ _).isInfix
  | cons item rest ih =>
    cases item with
    | node n =>
      have hrest := ih h
      rw [List.map_append, List.append_assoc] at hrest
      exact hrest
    | delimiter d =>
      have hlater (h : g.nodes.map Item.node <:+: rest) :
          g.nodes.map .node <:+: nodes.map .node ++ .delimiter d :: rest :=
        h.trans ((List.suffix_cons _ _).trans (List.suffix_append _ _)).isInfix
      rw [groupsFrom_delimiter] at h
      rcases List.mem_cons.mp h with rfl | h
      · exact (List.prefix_append _ _).isInfix
      · exact hlater (ih h)

/-- The nodes of a group of items are separate if the items are. -/
theorem separate_of_mem_groups {g : Group} {is : List Item} (hg : g ∈ groups is)
    (h : SeparateItems is) : Node.Separate g.nodes := by
  have hchain : SeparateItems (g.nodes.map .node) := List.IsChain.infix h (infix_of_mem_groupsFrom hg)
  exact (List.isChain_map Item.node).mp hchain

/-- The text nodes in a group of the items of a list have no delimiters. -/
theorem isCutText_of_mem_groups {ns : List Node} (hcut : cutFault? ns = none) {g : Group}
    (hg : g ∈ groups (items ns)) : ∀ n ∈ g.nodes, IsCutText n :=
  fun _ hn => isCutText_of_mem_items hcut (mem_of_mem_groups hg hn)

end Link

/-! ## References -/

namespace LinkReference

open Link

/-- Whether a reference is one that can be read from a link: the file has a name without marks, the id
is not empty if there is one, and what is displayed has no delimiters and no text nodes side by side. -/
structure IsWellFormed (reference : LinkReference) : Prop where
  /-- The name of the file is not empty. -/
  file_ne : reference.file ≠ ""
  /-- The name of the file has no number sign, bar or line break. -/
  file : ∀ c ∈ reference.file.toList, c ≠ '#' ∧ c ≠ '|' ∧ c ≠ '\n'
  /-- The name of the file has no delimiter. -/
  file_lacks : Lacks reference.file.toList
  /-- The id, if there is one, is not empty, and has no bar, line break or delimiter. -/
  id : ∀ id ∈ reference.id, id ≠ "" ∧ (∀ c ∈ id.toList, c ≠ '|' ∧ c ≠ '\n') ∧ Lacks id.toList
  /-- No two text nodes are side by side. -/
  separate : Node.Separate reference.nodes
  /-- No text node has a delimiter. -/
  cut : ∀ n ∈ reference.nodes, IsCutText n
  /-- If the first node is a text node, its text is not empty and has no line break. -/
  display : ∀ n ∈ reference.nodes.head?, n.isText = true →
    ∃ s, n.text? = some s ∧ s ≠ "" ∧ '\n' ∉ s.toList

/-- What is taken as an optional part is not empty, has only what belongs to it, and is a part of the
text. What comes after it is the end of the text. -/
theorem optionalPart_spec (mark : Char) (belongs : Char → Bool) (cs : List Char) :
    (∀ part ∈ (optionalPart mark belongs cs).1,
      part ≠ [] ∧ (∀ c ∈ part, belongs c = true) ∧ part <:+: cs) ∧
    (optionalPart mark belongs cs).2 <:+ cs := by
  unfold optionalPart
  cases cs with
  | nil => simp
  | cons c rest =>
    dsimp only
    split
    · next hpart =>
      refine ⟨fun part hmem => ?_, (List.dropWhile_suffix _).trans (List.suffix_cons c rest)⟩
      obtain rfl : rest.takeWhile belongs = part := Option.some.inj hmem
      refine ⟨hpart.2, fun d hd => List.mem_takeWhile_imp hd, ?_⟩
      exact (List.takeWhile_prefix belongs).isInfix.trans (List.suffix_cons c rest).isInfix
    · exact ⟨by simp, List.suffix_refl _⟩

/-- A reference is well formed if it is read from a text without delimiters, before nodes that do not
begin with a text node and have neither text nodes side by side nor delimiters. -/
theorem isWellFormed_of_ofText? {cs : List Char} {others : List Node} {reference : LinkReference}
    (h : ofText? cs others = some reference) (hlacks : Lacks cs)
    (hfirst : ∀ n ∈ others.head?, n.isText = false) (hseparate : Node.Separate others)
    (hcut : ∀ n ∈ others, IsCutText n) : reference.IsWellFormed := by
  unfold ofText? at h
  split at h
  · simp at h
  · next hfile =>
    obtain rfl := Option.some.inj h
    obtain ⟨hid, hafter⟩ := optionalPart_spec '#' isIdChar (cs.dropWhile isFileChar)
    obtain ⟨hdisplay, -⟩ := optionalPart_spec '|' isDisplayChar
      (optionalPart '#' isIdChar (cs.dropWhile isFileChar)).2
    have hrest : cs.dropWhile isFileChar <:+ cs := List.dropWhile_suffix _
    constructor
    -- The file is made of the first characters of the text, up to one that cannot stand in a name.
    case file_ne => simpa using hfile
    case file =>
      intro c hc
      rw [String.toList_ofList] at hc
      have hbelongs := List.mem_takeWhile_imp hc
      simpa [isFileChar, and_assoc] using hbelongs
    case file_lacks =>
      rw [String.toList_ofList]
      exact hlacks.infix (List.takeWhile_prefix isFileChar).isInfix
    -- The id is a part of what follows the file.
    case id =>
      intro id hmem
      obtain ⟨part, hpart, rfl⟩ := Option.map_eq_some_iff.mp hmem
      obtain ⟨hne, hbelongs, hwithin⟩ := hid part hpart
      rw [String.toList_ofList]
      refine ⟨by simpa using hne, fun c hc => ?_, hlacks.infix (hwithin.trans hrest.isInfix)⟩
      simpa [isIdChar] using hbelongs c hc
    -- What is displayed is a part of what follows the id, as one new text in front of the other nodes,
    -- or these alone.
    case separate =>
      dsimp only
      split
      · cases others with
        | nil => exact List.isChain_singleton _
        | cons n rest => exact List.isChain_cons_cons.mpr ⟨.inr (hfirst n rfl), hseparate⟩
      · exact hseparate
    case cut =>
      dsimp only
      split
      · next shown hshown =>
        obtain ⟨-, -, hwithin⟩ := hdisplay shown hshown
        refine List.forall_mem_cons.mpr ⟨fun _ => .inl ⟨_, Node.text?_text _, ?_⟩, hcut⟩
        rw [String.toList_ofList]
        exact hlacks.infix (hwithin.trans (hafter.trans hrest).isInfix)
      · exact hcut
    case display =>
      dsimp only
      split
      · next shown hshown =>
        -- The new text is the first node, not empty and on one line.
        obtain ⟨hne, hbelongs, -⟩ := hdisplay shown hshown
        intro n hn _
        obtain rfl : Node.text (String.ofList shown) = n := Option.some.inj hn
        refine ⟨_, Node.text?_text _, by simpa using hne, fun hline => ?_⟩
        rw [String.toList_ofList] at hline
        simpa [isDisplayChar] using hbelongs _ hline
      · intro n hn htext
        simp [hfirst n hn] at htext

/-- The reference of a group is well formed if the group has neither text nodes side by side nor
delimiters. -/
theorem isWellFormed_of_reference? {g : Group} {reference : LinkReference}
    (h : g.reference? = some reference) (hseparate : Node.Separate g.nodes)
    (hcut : ∀ n ∈ g.nodes, IsCutText n) : reference.IsWellFormed := by
  obtain ⟨-, first, others, s, hnodes, hs, -, href⟩ := Group.reference?_eq_some.mp h
  rw [hnodes] at hseparate hcut
  have htext : first.isText = true := Node.isText_of_text? hs
  obtain ⟨hfirst, hothers⟩ := List.forall_mem_cons.mp hcut
  -- The reference is in the first node, so what follows it is no text node.
  have hnext : ∀ n ∈ others.head?, n.isText = false := by
    intro n hn
    cases others with
    | nil => simp at hn
    | cons m rest =>
      obtain rfl : m = n := by simpa using hn
      exact (List.isChain_cons_cons.mp hseparate).1.resolve_left (by simp [htext])
  have hlacks : Lacks s.toList := by
    rcases hfirst htext with ⟨u, hu, hlacks⟩ | ⟨head, info, children, -, hnone, -⟩
    · obtain rfl : s = u := Option.some.inj (hs.symm.trans hu)
      exact hlacks
    · simp [hs] at hnone
  exact isWellFormed_of_ofText? href hlacks hnext hseparate.tail hothers

end LinkReference

end Transclude
