import Transclude.Proofs.Link.Fate
import Transclude.Proofs.Tree.PlainTexts

/-!
# Signs

The signs of a list of nodes are the characters of its texts, one after the other, with the other
nodes between them. If no text is empty, the signs determine the items of the merged list, but for
what its texts carry: `cutSigns` reads the items off, and `items_mergeText` says that these are the
ones. So links can be read from signs part by part, wherever the texts begin and end.
-/

namespace Transclude

/-! ## The signs of nodes -/

namespace Node

/-- The characters of a text, or a node that is no text. -/
def signsOf (n : Node) : List (Char ⊕ Node) :=
  match n.text? with
  | some s => s.toList.map .inl
  | none => [.inr n]

/-- The signs of a list of nodes. -/
def signs (ns : List Node) : List (Char ⊕ Node) := ns.flatMap signsOf

/-- The signs of a text are its characters. -/
theorem signsOf_of_text? {n : Node} {s : String} (h : n.text? = some s) :
    n.signsOf = s.toList.map .inl := by
  unfold signsOf
  rw [h]

/-- A node that is no text is one sign. -/
theorem signsOf_of_text?_eq_none {n : Node} (h : n.text? = none) :
    n.signsOf = [.inr n] := by
  unfold signsOf
  rw [h]

/-- The signs of a list come after those of its first node. -/
theorem signs_cons (n : Node) (ns : List Node) : signs (n :: ns) = n.signsOf ++ signs ns :=
  List.flatMap_cons

/-- The signs of two lists come one after the other. -/
theorem signs_append (ns ms : List Node) : signs (ns ++ ms) = signs ns ++ signs ms :=
  List.flatMap_append

/-- Merging leaves the signs as they are. -/
theorem signs_mergeText (ns : List Node) : signs (mergeText ns) = signs ns := by
  induction ns with
  | nil => rfl
  | cons n rest ih =>
    rw [mergeText_cons, signs_cons, ← ih]
    cases mergeText rest with
    | nil => rfl
    | cons m ms =>
      by_cases hnm : n.text? = none ∨ m.text? = none
      · rw [prependMerged_of_apart hnm, signs_cons]
      · rw [not_or] at hnm
        obtain ⟨s, hs⟩ := Option.ne_none_iff_exists'.mp hnm.1
        obtain ⟨t, ht⟩ := Option.ne_none_iff_exists'.mp hnm.2
        rw [prependMerged_of_texts hs ht, signs_cons, signs_cons, signsOf_of_text? hs,
          signsOf_of_text? ht, signsOf_of_text? (text?_text _)]
        simp

/-- Merging makes no text empty. -/
theorem text?_ne_empty_of_mem_mergeText {ns : List Node} (h : ∀ n ∈ ns, n.text? ≠ some "") :
    ∀ n ∈ mergeText ns, n.text? ≠ some "" := by
  induction ns with
  | nil => simp [mergeText_nil]
  | cons n rest ih =>
    have hrest := ih fun m hm => h m (List.mem_cons_of_mem n hm)
    have hn := h n List.mem_cons_self
    rw [mergeText_cons]
    cases hmerged : mergeText rest with
    | nil => simpa [prependMerged] using hn
    | cons m ms =>
      rw [hmerged] at hrest
      by_cases hnm : n.text? = none ∨ m.text? = none
      · rw [prependMerged_of_apart hnm]
        exact List.forall_mem_cons.mpr ⟨hn, hrest⟩
      · rw [not_or] at hnm
        obtain ⟨s, hs⟩ := Option.ne_none_iff_exists'.mp hnm.1
        obtain ⟨t, ht⟩ := Option.ne_none_iff_exists'.mp hnm.2
        rw [prependMerged_of_texts hs ht]
        refine List.forall_mem_cons.mpr ⟨?_, (List.forall_mem_cons.mp hrest).2⟩
        rw [text?_text]
        rintro heq
        rw [Option.some.injEq, String.append_eq_empty_iff] at heq
        exact hn (heq.1 ▸ hs)

end Node

namespace Link

open Node

/-! ## Cutting signs -/

/-- A text with one character. -/
def letter (c : Char) : Node := text (String.ofList [c])

/-- An item with nothing but its value, if it is a text. -/
def Item.bareText : Item → Item
  | .node n => .node n.bareText
  | .delimiter d => .delimiter d

/-- Puts a character in front of items. It is joined with a text that comes first. -/
def prependChar (c : Char) : List Item → List Item
  | .node n :: rest =>
    match n.text? with
    | some s => .node (text (String.ofList (c :: s.toList))) :: rest
    | none => .node (letter c) :: .node n :: rest
  | items => .node (letter c) :: items

/-- Cuts signs at the delimiters, from left to right. -/
def cutSigns : List (Char ⊕ Node) → List Item
  | .inl '[' :: .inl '[' :: rest => .delimiter .start :: cutSigns rest
  | .inl ']' :: .inl ']' :: rest => .delimiter .stop :: cutSigns rest
  | .inl c :: rest => prependChar c (cutSigns rest)
  | .inr n :: rest => .node n :: cutSigns rest
  | [] => []

/-- A character is put in front of the parts of a text, or in front of what follows. -/
theorem prependChar_map_item (c : Char) (tokens : List Token) {items : List Item}
    (h : ∀ n ∈ items.head?, ∃ m, n = .node m ∧ m.text? = none) :
    prependChar c (tokens.map Token.item ++ items) =
      (Token.prependChar c tokens).map Token.item ++ items := by
  cases tokens with
  | cons token rest =>
    cases token with
    | text cs => simp [Token.prependChar, prependChar, Token.item, text?_text]
    | delimiter d => rfl
  | nil =>
    cases items with
    | nil => rfl
    | cons item others =>
      obtain ⟨m, rfl, hm⟩ := h item rfl
      simp [Token.prependChar, prependChar, Token.item, hm, letter]

/-- The characters of a text are cut as the text is, if no other text follows. -/
theorem cutSigns_text (cs : List Char) {signs : List (Char ⊕ Node)}
    (h : ∀ x ∈ signs.head?, ∃ n, x = .inr n ∧ n.text? = none) :
    cutSigns (cs.map .inl ++ signs) = (Token.cut cs).map Token.item ++ cutSigns signs := by
  have hitems : ∀ item ∈ (cutSigns signs).head?, ∃ n, item = .node n ∧ n.text? = none := by
    cases signs with
    | nil => simp [cutSigns]
    | cons x rest =>
      obtain ⟨n, rfl, hn⟩ := h x rfl
      simpa [cutSigns] using hn
  -- What follows a character among the signs follows it in the text.
  have hnext {c : Char} {rest : List Char} {tail : List (Char ⊕ Node)}
      (heq : rest.map .inl ++ signs = .inl c :: tail) : ∃ others, rest = c :: others := by
    cases rest with
    | nil =>
      obtain ⟨n, hn, -⟩ := h (.inl c) (by simp at heq; simp [heq])
      simp at hn
    | cons d others => exact ⟨others, by simp at heq; rw [heq.1]⟩
  induction cs using Token.cut.induct with
  | case1 rest ih => simpa [cutSigns, Token.cut, Token.item] using ih
  | case2 rest ih => simpa [cutSigns, Token.cut, Token.item] using ih
  | case3 c rest hstart hstop ih =>
    rw [List.map_cons, List.cons_append, cutSigns, ih, prependChar_map_item c _ hitems, Token.cut]
    · exact hstart
    · exact hstop
    · intro tail heq hc
      obtain ⟨others, hothers⟩ := hnext heq
      exact hstart others hc hothers
    · intro tail heq hc
      obtain ⟨others, hothers⟩ := hnext heq
      exact hstop others hc hothers
  | case4 => rfl

/-- A text without delimiters is one part. -/
theorem cut_of_no_delimiter {cs : List Char} (hne : cs ≠ [])
    (h : (Token.cut cs).any Token.isDelimiter = false) : Token.cut cs = [.text cs] := by
  induction cs using Token.cut.induct with
  | case1 rest ih => simp [Token.cut, Token.isDelimiter] at h
  | case2 rest ih => simp [Token.cut, Token.isDelimiter] at h
  | case3 c rest hstart hstop ih =>
    have hcut : Token.cut (c :: rest) = Token.prependChar c (Token.cut rest) := by
      rw [Token.cut]
      · exact hstart
      · exact hstop
    rw [hcut] at h ⊢
    cases rest with
    | nil => rfl
    | cons d others =>
      have hrest : (Token.cut (d :: others)).any Token.isDelimiter = false := by
        unfold Token.prependChar at h
        split at h
        · next tokens heq => simpa [heq, Token.isDelimiter] using h
        · simpa [Token.isDelimiter] using h
      rw [ih (by simp) hrest, Token.prependChar]
  | case4 => exact absurd rfl hne

/-- A text that is not empty becomes the parts that it is cut to, but for what it carries. -/
theorem map_bareText_itemsOf {n : Node} {s : String} (h : n.text? = some s) (hne : s ≠ "") :
    (itemsOf n).map Item.bareText = (Token.cut s.toList).map Token.item := by
  cases hd : hasDelimiter s with
  | false =>
    have hchars : s.toList ≠ [] := by simpa using hne
    rw [itemsOf_of_no_delimiter h hd, cut_of_no_delimiter hchars hd]
    simp [Item.bareText, Token.item, bareText_of_text? h]
  | true =>
    rw [itemsOf_of_hasDelimiter h hd, List.map_map]
    refine List.map_congr_left fun token _ => ?_
    cases token with
    | text cs => exact congrArg Item.node (bareText_of_text? (text?_text _))
    | delimiter d => rfl

/-- The items of nodes whose texts are apart are read off their signs. -/
theorem items_of_apart {ns : List Node} (hapart : Apart ns) (hne : ∀ n ∈ ns, n.text? ≠ some "") :
    (items ns).map Item.bareText = cutSigns (signs ns) := by
  unfold Apart at hapart
  induction ns with
  | nil => rfl
  | cons n rest ih =>
    have hitems : items (n :: rest) = itemsOf n ++ items rest := List.flatMap_cons
    rw [hitems, List.map_append, signs_cons,
      ih hapart.tail fun m hm => hne m (List.mem_cons_of_mem n hm)]
    cases hn : n.text? with
    | none =>
      rw [itemsOf_of_text?_eq_none hn, signsOf_of_text?_eq_none hn]
      simp [Item.bareText, cutSigns, bareText_of_text?_eq_none hn]
    | some s =>
      -- An empty text would be an item without signs.
      have hs : s ≠ "" := by
        rintro rfl
        exact hne n List.mem_cons_self hn
      rw [map_bareText_itemsOf hn hs, signsOf_of_text? hn, cutSigns_text]
      -- A text that follows would not be apart.
      cases rest with
      | nil => simp [signs]
      | cons m others =>
        have hm : m.text? = none := by
          simpa [hn] using (List.isChain_cons_cons.mp hapart).1
        rw [signs_cons, signsOf_of_text?_eq_none hm]
        simp [hm]

/-- The items of merged nodes are read off the signs of the nodes. -/
theorem items_mergeText {ns : List Node} (hne : ∀ n ∈ ns, n.text? ≠ some "") :
    (items (mergeText ns)).map Item.bareText = cutSigns (signs ns) := by
  rw [items_of_apart (apart_mergeText ns) (text?_ne_empty_of_mem_mergeText hne), signs_mergeText]

/-! ## Items by their values -/

/-- A fate with nothing but their values in the texts inside. -/
def Fate.bareTexts : Fate → Fate
  | .link inside => .link (inside.map Node.bareText)
  | .invalid inside => .invalid (inside.map Node.bareText)
  | .unclosed => .unclosed

section Values

variable (items : List Item)

/-- The values inside are those of the nodes inside. -/
theorem inside_map_bareText : inside (items.map Item.bareText) = (inside items).map bareText := by
  induction items with
  | nil => rfl
  | cons item rest ih =>
    cases item with
    | node n => exact congrArg (n.bareText :: ·) ih
    | delimiter d => rfl

/-- The first delimiter does not depend on what texts carry. -/
theorem next?_map_bareText : next? (items.map Item.bareText) = next? items := by
  induction items with
  | nil => rfl
  | cons item rest ih =>
    cases item with
    | node n => exact ih
    | delimiter d => rfl

/-- Whether nodes make a link does not depend on what texts carry. -/
theorem beginsLink_map_bareText (nodes : List Node) :
    beginsLink (nodes.map bareText) = beginsLink nodes := by
  unfold beginsLink
  cases nodes <;> simp [text?_bareText]

/-- Whether items start a link does not depend on what texts carry. -/
theorem startsLink_map_bareText : startsLink (items.map Item.bareText) = startsLink items := by
  rw [startsLink, next?_map_bareText, inside_map_bareText, beginsLink_map_bareText]
  rfl

/-- The fates of items do not depend on what texts carry. -/
theorem fates_map_bareText :
    fates (items.map Item.bareText) = (fates items).map Fate.bareTexts := by
  induction items with
  | nil => rfl
  | cons item rest ih =>
    cases item with
    | node n => exact ih
    | delimiter d =>
      cases d with
      | stop => exact ih
      | start =>
        have hfate : fateOf (rest.map Item.bareText) = (fateOf rest).bareTexts := by
          unfold fateOf
          rw [next?_map_bareText, inside_map_bareText, beginsLink_map_bareText]
          split
          · split <;> rfl
          · rfl
        rw [List.map_cons, Item.bareText, fates, fates, hfate, ih, List.map_cons]

/-- Items are written out as the same nodes, whatever texts carry. -/
theorem splice_map_bareText (within : Bool) (answers : List (List Node)) :
    splice within (answers.map (·.map bareText)) (items.map Item.bareText) =
      (splice within answers items).map bareText := by
  induction within, answers, items using splice.induct with
  | case1 within answers => simp [splice]
  | case2 answers n rest ih => exact ih
  | case3 answers d rest ih => exact ih
  | case4 answers n rest ih => exact congrArg (n.bareText :: ·) ih
  | case5 answers rest ih => exact congrArg (text Delimiter.stop.text :: ·) ih
  | case6 answers rest hstarts ih =>
    rw [List.map_cons, Item.bareText, splice, splice, startsLink_map_bareText, if_pos hstarts,
      if_pos hstarts, List.map_append, ← ih]
    cases answers <;> rfl
  | case7 answers rest hstarts ih =>
    rw [List.map_cons, Item.bareText, splice, splice, startsLink_map_bareText, if_neg hstarts,
      if_neg hstarts, List.map_cons, ih, bareText_of_text? (text?_text _)]

end Values

/-! ## Reading signs -/

/-- Whether a character has no part in any delimiter. -/
def isPlain (c : Char) : Bool := c != '[' && c != ']'

section Reading

variable {c : Char} {cs : List Char} (signs : List (Char ⊕ Node)) (answers : List (List Node))

/-- A character that has no part in a delimiter is put in front of what follows. -/
theorem cutSigns_of_isPlain (h : isPlain c = true) :
    cutSigns (.inl c :: signs) = prependChar c (cutSigns signs) := by
  obtain ⟨hstart, hstop⟩ : c ≠ '[' ∧ c ≠ ']' := by simpa [isPlain] using h
  rw [cutSigns]
  · exact fun _ _ hc => hstart hc
  · exact fun _ _ hc => hstop hc

/-- A character in front of items changes no fate. -/
theorem fates_prependChar (c : Char) (items : List Item) :
    fates (prependChar c items) = fates items := by
  cases items with
  | nil => rfl
  | cons item rest =>
    cases item with
    | node n =>
      rw [prependChar]
      split <;> rfl
    | delimiter d => rfl

/-- A character in front of items is written out in front of them. -/
theorem mergeText_splice_prependChar (c : Char) (items : List Item) :
    mergeText (splice false answers (prependChar c items)) =
      prependMerged (letter c) (mergeText (splice false answers items)) := by
  cases items with
  | nil => rfl
  | cons item rest =>
    cases item with
    | node n =>
      rw [prependChar]
      cases hn : n.text? with
      | none => rfl
      | some s =>
        have hs : String.ofList (c :: s.toList) = String.ofList [c] ++ s := by
          apply String.toList_injective
          simp
        dsimp only
        rw [hs, splice, splice, mergeText_cons, mergeText_cons,
          prependMerged_text_append (text?_text _) hn]
        rfl
    | delimiter d => rfl

/-- What signs come to when their links are resolved, with answers in place of the links. -/
def mended : List Node := mergeText (splice false answers (cutSigns signs))

variable (hcs : ∀ c ∈ cs, isPlain c = true)

include hcs

/-- Characters that have no part in a delimiter are put in front of what follows. -/
theorem cutSigns_of_plain :
    cutSigns (cs.map .inl ++ signs) = cs.foldr prependChar (cutSigns signs) := by
  induction cs with
  | nil => rfl
  | cons c rest ih =>
    obtain ⟨hc, hrest⟩ := List.forall_mem_cons.mp hcs
    rw [List.map_cons, List.cons_append, cutSigns_of_isPlain _ hc, ih hrest, List.foldr_cons]

/-- Such characters change no fate. -/
theorem fates_of_plain : fates (cutSigns (cs.map .inl ++ signs)) = fates (cutSigns signs) := by
  rw [cutSigns_of_plain signs hcs]
  induction cs with
  | nil => rfl
  | cons c rest ih =>
    rw [List.foldr_cons, fates_prependChar, ih (List.forall_mem_cons.mp hcs).2]

/-- Such characters are written out as a text. -/
theorem mended_of_plain (hne : cs ≠ []) : mended (cs.map .inl ++ signs) answers =
    prependMerged (text (String.ofList cs)) (mended signs answers) := by
  unfold mended
  rw [cutSigns_of_plain signs hcs]
  induction cs with
  | nil => exact absurd rfl hne
  | cons c rest ih =>
    rw [List.foldr_cons, mergeText_splice_prependChar]
    cases rest with
    | nil => rfl
    | cons d others =>
      have hs : String.ofList (c :: d :: others) =
          String.ofList [c] ++ String.ofList (d :: others) := by
        apply String.toList_injective
        simp
      rw [ih (List.forall_mem_cons.mp hcs).2 (by simp), hs,
        prependMerged_text_append (text?_text _) (text?_text _)]
      rfl

/-- Such characters between the delimiters of a link are one text. -/
theorem cutSigns_link (hne : cs ≠ []) :
    cutSigns (('[' :: '[' :: (cs ++ [']', ']'])).map .inl ++ signs) =
      .delimiter .start :: .node (text (String.ofList cs)) :: .delimiter .stop ::
        cutSigns signs := by
  have hinside : cutSigns (cs.map .inl ++ (.inl ']' :: .inl ']' :: signs)) =
      .node (text (String.ofList cs)) :: .delimiter .stop :: cutSigns signs := by
    rw [cutSigns_of_plain _ hcs]
    induction cs with
    | nil => exact absurd rfl hne
    | cons c rest ih =>
      rw [List.foldr_cons]
      cases rest with
      | nil => rfl
      | cons d others =>
        rw [ih (List.forall_mem_cons.mp hcs).2 (by simp), prependChar, text?_text]
        simp
  simpa [cutSigns] using hinside

end Reading

/-- When the links of nodes are resolved, they come to what their signs do, but for what texts
carry. -/
theorem map_bareText_splice {ns : List Node} (hne : ∀ n ∈ ns, n.text? ≠ some "")
    (answers : List (List Node)) :
    (mergeText (splice false answers (items (mergeText ns)))).map bareText =
      mended (signs ns) (answers.map (·.map bareText)) := by
  rw [map_bareText_mergeText, ← splice_map_bareText, items_mergeText hne, mended]

/-- A text between delimiters that makes a link has this fate. -/
theorem fates_of_link {n : Node} (h : beginsLink [n] = true) (items : List Item) :
    fates (.delimiter .start :: .node n :: .delimiter .stop :: items) =
      .link [n] :: fates items := by
  simp [fates, fateOf, next?, inside, h]

/-- In place of a text between delimiters that makes a link, the answer is written out. -/
theorem splice_of_link {n : Node} (h : beginsLink [n] = true) (answers : List (List Node))
    (items : List Item) :
    splice false answers (.delimiter .start :: .node n :: .delimiter .stop :: items) =
      answers.headD [] ++ splice false answers.tail items := by
  simp [splice, startsLink, next?, inside, h]

section Nodes

variable {ns : List Node}
  (hns : ∀ n ∈ ns, ∀ s, n.text? = some s → s ≠ "" ∧ ∀ c ∈ s.toList, isPlain c = true)

include hns

/-- Nodes whose texts have no part in a delimiter change no fate. -/
theorem fates_of_plain_nodes (signs : List (Char ⊕ Node)) :
    fates (cutSigns (Node.signs ns ++ signs)) = fates (cutSigns signs) := by
  induction ns with
  | nil => rfl
  | cons n rest ih =>
    have hrest := ih fun m hm => hns m (List.mem_cons_of_mem n hm)
    rw [signs_cons, List.append_assoc]
    cases hn : n.text? with
    | none =>
      rw [signsOf_of_text?_eq_none hn, List.singleton_append, cutSigns, fates, hrest]
      simp
    | some s => rw [signsOf_of_text? hn, fates_of_plain _ (hns n List.mem_cons_self s hn).2, hrest]

/-- Such nodes are written out as they are, but for what their texts carry. -/
theorem mended_of_plain_nodes (signs : List (Char ⊕ Node)) (answers : List (List Node)) :
    mended (Node.signs ns ++ signs) answers =
      (ns.map bareText).foldr prependMerged (mended signs answers) := by
  induction ns with
  | nil => rfl
  | cons n rest ih =>
    have hrest := ih fun m hm => hns m (List.mem_cons_of_mem n hm)
    rw [signs_cons, List.append_assoc, List.map_cons, List.foldr_cons, ← hrest]
    cases hn : n.text? with
    | none =>
      rw [signsOf_of_text?_eq_none hn, List.singleton_append, mended, cutSigns, splice,
        mergeText_cons, bareText_of_text?_eq_none hn, mended]
    | some s =>
      obtain ⟨hne, hplain⟩ := hns n List.mem_cons_self s hn
      rw [signsOf_of_text? hn, mended_of_plain _ _ hplain (by simpa using hne), String.ofList_toList,
        bareText_of_text? hn]

end Nodes

end Link

end Transclude
