import Transclude.Proofs.Link.Reference
import Transclude.Proofs.Run.Steps
import Transclude.Proofs.Tree.Display

/-!
# What a link displays

The text to display is what follows the first bar in the text that a link begins with. A link displays
all of it, unless the name of the file is followed by a number sign and a bar: there the reference ends
where an id is missing, and the text after the bar is lost. `nodes_of_ofText?` says so of a text, and
`resolveGroup_display` of a group, which is restored if it is no link.
-/

namespace Transclude

namespace LinkReference

/-- What follows the first bar of a text. -/
def afterBar (cs : List Char) : List Char := (cs.dropWhile (· != '|')).tail

/-- Whether the name of a file is followed by a number sign and at once by a bar, so that an id is
missing between the two. -/
def missesId (cs : List Char) : Bool := ['#', '|'].isPrefixOf (cs.dropWhile isFileChar)

/-- A bar is found after characters that can stand in the name of a file. -/
theorem afterBar_append {file : List Char} (h : ∀ c ∈ file, isFileChar c = true) (rest : List Char) :
    afterBar (file ++ rest) = afterBar rest := by
  have hbar : ∀ c ∈ file, (c != '|') = true := by
    intro c hc
    have hfile := h c hc
    simp only [isFileChar, Bool.and_eq_true] at hfile
    exact hfile.1.2
  rw [afterBar, List.dropWhile_append_of_pos hbar, afterBar]

/-- An id is looked for after characters that can stand in the name of a file. -/
theorem missesId_append {file : List Char} (h : ∀ c ∈ file, isFileChar c = true)
    (rest : List Char) : missesId (file ++ rest) = missesId rest := by
  rw [missesId, List.dropWhile_append_of_pos h, missesId]

/-- On one line an id ends before a bar or at the end, so nothing that follows a bar belongs to it. -/
theorem afterBar_dropWhile_isIdChar {cs : List Char} (hline : '\n' ∉ cs) :
    (∀ c ∈ (cs.dropWhile isIdChar).head?, c = '|') ∧
      afterBar (cs.dropWhile isIdChar) = afterBar cs := by
  induction cs with
  | nil => simp
  | cons c rest ih =>
    rw [List.mem_cons, not_or] at hline
    by_cases hc : c = '|'
    · subst hc
      exact ⟨by simp [isIdChar], rfl⟩
    · have hid : isIdChar c = true := by simp [isIdChar, hc, Ne.symm hline.1]
      have hafter : afterBar (c :: rest) = afterBar rest := by simp [afterBar, hc]
      rw [List.dropWhile_cons_of_pos hid, hafter]
      exact ih hline.2

/-- The nodes that a link displays, by what is left of its text after the file and the id. -/
def displayed (cs : List Char) (others : List Node) : List Node :=
  match (optionalPart '|' isDisplayChar cs).1 with
  | some shown => Node.text (String.ofList shown) :: others
  | none => others

/-- All that is left of a line is displayed, if it begins with a bar. -/
theorem displayed_of_bar {cs : List Char} (hline : '\n' ∉ cs) (hbar : ∀ c ∈ cs.head?, c = '|')
    (others : List Node) : displayed cs others = Node.ofChars (afterBar cs) ++ others := by
  cases cs with
  | nil => rfl
  | cons c rest =>
    obtain rfl := hbar c rfl
    rw [List.mem_cons, not_or] at hline
    have hall : rest.takeWhile isDisplayChar = rest := by
      refine List.takeWhile_eq_self_iff.mpr fun c hc => ?_
      rw [isDisplayChar, bne_iff_ne]
      rintro rfl
      exact hline.2 hc
    have hafter : afterBar ('|' :: rest) = rest := rfl
    rw [displayed, optionalPart, hall, hafter, Node.ofChars]
    cases rest <;> simp

/-- What follows the name of a file on one line displays what follows its first bar, unless an id is
missing, and then nothing. -/
theorem displayed_of_rest {cs : List Char} (hline : '\n' ∉ cs)
    (hmark : ∀ c ∈ cs.head?, isFileChar c = false) (others : List Node) :
    displayed (optionalPart '#' isIdChar cs).2 others =
      (if missesId cs = true then [] else Node.ofChars (afterBar cs)) ++ others := by
  cases cs with
  | nil => rfl
  | cons mark rest =>
    by_cases hsign : mark = '#'
    · subst hsign
      cases rest with
      | nil => rfl
      | cons c after =>
        by_cases hc : c = '|'
        · -- No id is there, so the reference ends before the number sign.
          subst hc
          rfl
        · have hafter : afterBar ('#' :: c :: after) = afterBar (c :: after) := rfl
          have hid : missesId ('#' :: c :: after) = false := by
            simp [missesId, isFileChar, List.isPrefixOf, Ne.symm hc]
          have hne : (c :: after).takeWhile isIdChar ≠ [] := by
            have hc' : c ≠ '\n' := fun heq => hline (by simp [heq])
            simp [isIdChar, hc, hc']
          have hrest : '\n' ∉ c :: after := fun hmem => hline (List.mem_cons_of_mem _ hmem)
          have hend : '\n' ∉ (c :: after).dropWhile isIdChar := fun hmem =>
            hrest ((List.dropWhile_suffix isIdChar).mem hmem)
          obtain ⟨hbar, hagain⟩ := afterBar_dropWhile_isIdChar hrest
          rw [optionalPart, if_pos ⟨rfl, hne⟩, hid, displayed_of_bar hend hbar, hagain, hafter]
          rfl
    · have hne : mark ≠ '\n' := fun heq => hline (by simp [heq])
      obtain rfl : mark = '|' := by simpa [isFileChar, hsign, hne] using hmark mark rfl
      have hid : missesId ('|' :: rest) = false := rfl
      have hnone : optionalPart '#' isIdChar ('|' :: rest) = (none, '|' :: rest) := rfl
      rw [hnone, hid, displayed_of_bar hline (by simp)]
      rfl

/-- A reference displays what follows the first bar of its text, unless an id is missing, and then the
nodes after the text. -/
theorem nodes_of_ofText? {cs : List Char} (hline : '\n' ∉ cs) {others : List Node}
    {reference : LinkReference} (h : ofText? cs others = some reference) :
    reference.nodes =
      (if missesId cs = true then [] else Node.ofChars (afterBar cs)) ++ others := by
  have hnodes : reference.nodes =
      displayed (optionalPart '#' isIdChar (cs.dropWhile isFileChar)).2 others := by
    unfold ofText? at h
    split at h
    · simp at h
    · rw [← Option.some.inj h]
      rfl
  have hfile : ∀ c ∈ cs.takeWhile isFileChar, isFileChar c = true := fun c hc =>
    List.mem_takeWhile_imp hc
  have hsplit := List.takeWhile_append_dropWhile (p := isFileChar) (l := cs)
  have hrest : '\n' ∉ cs.dropWhile isFileChar := fun hmem =>
    hline ((List.dropWhile_suffix isFileChar).mem hmem)
  have hmark : ∀ c ∈ (cs.dropWhile isFileChar).head?, isFileChar c = false := by
    have hhead := List.head?_dropWhile_not isFileChar cs
    intro c hc
    simpa [Option.mem_def.mp hc] using hhead
  rw [hnodes, displayed_of_rest hrest hmark]
  conv_rhs => rw [← hsplit, afterBar_append hfile, missesId_append hfile]

end LinkReference

/-- The reference of a link is read from the text that its group begins with, which is on one line. -/
theorem Link.Group.exists_ofText?_of_link {g : Link.Group} {reference : LinkReference}
    (h : g.link = .ok (some reference)) : ∃ first others s, g.nodes = first :: others ∧
      first.text? = some s ∧ '\n' ∉ s.toList ∧
      LinkReference.ofText? s.toList others = some reference := by
  have hreference : g.reference? = some reference := by
    unfold Link.Group.link at h
    split at h
    · simp at h
    · exact Except.ok.inj h
  exact (reference?_eq_some.mp hreference).2

namespace Context

open LinkReference

variable {σ : Type}

/-- A group that is no link is put back, with its delimiters, and nothing is asked. -/
theorem resolveGroup_of_no_link (ctx : Context σ) {g : Link.Group} (h : g.link = .ok none)
    (hshown : Node.allDisplayable g.nodes = true) {st : State σ}
    (hst : ∀ head ∈ st.stack, head.isRegular = true) :
    ∃ st', ctx.resolveGroup g st = .ok g.restore st' ∧ st'.calls = st.calls := by
  have hnote : groupNote g = .ok none ∨
      ∃ note, groupNote g = .ok (some note) ∧ ∀ path, (note.message? path).isSome = true := by
    unfold groupNote Node.displayList?
    rw [if_pos hshown]
    cases g.opened <;> cases g.closed
    · exact .inl rfl
    · exact .inl rfl
    · exact .inr ⟨_, rfl, fun _ => rfl⟩
    · exact .inr ⟨_, rfl, fun _ => rfl⟩
  rw [resolveGroup_eq_take, Step.ofGroup, h]
  rcases hnote with hnone | ⟨note, hsome, hmessage⟩
  · rw [hnone]
    exact ⟨st, rfl, rfl⟩
  · obtain ⟨m, hm⟩ := Option.isSome_iff_exists.mp (hmessage (titles st.stack))
    rw [hsome]
    refine ⟨st.keep note.level m, ?_, rfl⟩
    simp [take, Run.bind_apply, Run.record_of_isRegular note st hst, hm]

/-- A group that is a link is asked for with all that follows the first bar of its text, and with its
other nodes after that. Only if an id is missing before the bar, what follows the bar is lost, and the
other nodes are all. A group that is no link is put back as it is. -/
theorem resolveGroup_display (ctx : Context σ) (g : Link.Group) :
    (∀ reference, g.link = .ok (some reference) → ∃ first others s,
      g.nodes = first :: others ∧ first.text? = some s ∧
      ctx.resolveGroup g = ctx.resolveLink reference ∧
      (reference.nodes = Node.ofChars (afterBar s.toList) ++ others ↔
        ¬ (missesId s.toList = true ∧ afterBar s.toList ≠ [])) ∧
      (missesId s.toList = true → reference.nodes = others)) ∧
    (g.link = .ok none → Node.allDisplayable g.nodes = true →
      ∀ st : State σ, (∀ head ∈ st.stack, head.isRegular = true) →
        ∃ st', ctx.resolveGroup g st = .ok g.restore st' ∧ st'.calls = st.calls) := by
  refine ⟨fun reference h => ?_, fun h hshown st hst => ctx.resolveGroup_of_no_link h hshown hst⟩
  obtain ⟨first, others, s, hnodes, htext, hline, href⟩ := Link.Group.exists_ofText?_of_link h
  have hdisplay := nodes_of_ofText? hline href
  refine ⟨first, others, s, hnodes, htext, ?_, ?_, fun hid => ?_⟩
  · rw [resolveGroup, h, Run.ofExcept_ok, pure_bind]
  · rw [hdisplay]
    by_cases hid : missesId s.toList = true
    · rw [if_pos hid, List.nil_append, Node.ofChars]
      by_cases hbar : afterBar s.toList = []
      · simp [hbar]
      · simp [hid, hbar]
    · simp [hid]
  · rw [hdisplay, if_pos hid, List.nil_append]

/-- The group of a link that begins with a text and displays an element. -/
def linkGroup (s : String) : Link.Group where
  start := 1
  stop := 3
  opened := true
  closed := true
  nodes := [Node.text s, Node.element "em" [] []]

/-- Bars and number signs after the first bar are displayed. -/
theorem resolveGroup_display_markedText :
    (linkGroup "f#i|x|#y").link =
        .ok (some ⟨"f", some "i", [Node.text "x|#y", Node.element "em" [] []]⟩) ∧
      ∃ first others s, (linkGroup "f#i|x|#y").nodes = first :: others ∧ first.text? = some s ∧
        echo.resolveGroup (linkGroup "f#i|x|#y") =
          echo.resolveLink ⟨"f", some "i", [Node.text "x|#y", Node.element "em" [] []]⟩ ∧
        ([Node.text "x|#y", Node.element "em" [] []] =
            Node.ofChars (afterBar s.toList) ++ others ↔
          ¬ (missesId s.toList = true ∧ afterBar s.toList ≠ [])) ∧
        (missesId s.toList = true → [Node.text "x|#y", Node.element "em" [] []] = others) :=
  ⟨rfl, (resolveGroup_display echo (linkGroup "f#i|x|#y")).1 _ rfl⟩

/-- The text to display is lost where an id is missing. -/
theorem link_display_lost :
    (linkGroup "f#|x").link = .ok (some ⟨"f", none, [Node.element "em" [] []]⟩) ∧
      afterBar "f#|x".toList = ['x'] ∧
      [Node.element "em" [] []] ≠
        Node.ofChars (afterBar "f#|x".toList) ++ [Node.element "em" [] []] :=
  ⟨rfl, rfl, fun h => nomatch congrArg List.length h⟩

end Context

end Transclude
