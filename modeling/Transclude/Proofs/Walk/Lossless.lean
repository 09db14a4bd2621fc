import Transclude.Proofs.Template.Gaps
import Transclude.Proofs.Walk.Segment

/-!
# Nothing is lost in an expansion

A text with templates becomes the texts between them and the answers to their calls by turns
(`expandPieces_piecesFrom`). The call of a template says all about how it is written
(`Template.chars_call_between`), so the texts and the calls, as they are written, are the text again
(`Template.alternate_gaps`). When each call is answered with itself as it is written, merging gives
the text back.
-/

namespace Transclude

/-! ## Templates as they are written -/

/-- How a call is written as a template. -/
def TemplateCall.chars (call : TemplateCall) : List Char :=
  (Segment.template call.file call.parameters).chars

namespace Template

/-- What stands between the colons of a template is written as it was. -/
theorem chars_ofChars (w : List Char) : (Inner.ofChars w).chars = w := by
  unfold Inner.chars Inner.ofChars
  rcases Text.upTo_mark '|' w with ⟨hnone, hwhole⟩ | ⟨metadata, hmetadata, hwhole⟩
  · simpa [hnone] using hwhole
  · simpa [hmetadata] using hwhole

/-- A template is written as it was read. -/
theorem chars_call_at {w : List Char} (h : IsInner w) (start : Nat) :
    ((Inner.ofChars w).at start).call.chars = ':' :: ':' :: (w ++ [':', ':']) := by
  have hinner : Segment.inner ((Inner.ofChars w).at start).call.file
      ((Inner.ofChars w).at start).call.parameters = Inner.ofChars w := by
    have hmetadata := (isInner_iff.mp h).2.2
    unfold Segment.inner
    cases hfound : Inner.ofChars w with
    | mk name metadata =>
      rw [hfound] at hmetadata
      cases metadata with
      | none => simp [Inner.at, Occurrence.call, Parameter.parse]
      | some m =>
        -- Metadata are not empty, so a call with metadata has parameters, and is written with them.
        have hne : String.ofList m ≠ "" := fun hm => hmetadata (by simpa using hm)
        simp [Inner.at, Occurrence.call, Parameter.parse_ne_nil hne, Parameter.spelling_parse hne]
  rw [TemplateCall.chars, Segment.chars, hinner, chars_ofChars]

/-- A template of a text is written as it stands there. -/
theorem chars_call_between {text : List Char} {start stop : Nat} (h : TemplateAt text start stop) :
    (Occurrence.between text start stop).call.chars = text.extract start stop := by
  obtain ⟨w, rest, hopened, hclosed, hinner, hstop⟩ := templateAt_iff.mp h
  rw [between_of_closes hopened hclosed hstop, chars_call_at hinner]
  obtain ⟨-, after, rfl⟩ := hclosed
  exact ((extract_eq_iff (by simp; omega)).mpr ⟨after, by simp [hopened]⟩).symm

/-- The gaps of a text and its templates, as they are written, are the text. -/
theorem alternate_gaps (text : String) :
    alternate (gaps text) ((scan text).map fun o => o.call.chars) = text.toList := by
  have hscan := leftmost_scan text
  have hwritten : ((scan text).map fun o => o.call.chars) =
      (scan text).map fun o => text.toList.extract o.start o.stop := by
    refine List.map_congr_left fun o ho => ?_
    obtain ⟨start, stop, hat, rfl⟩ := hscan.exists_templateAt o ho
    exact chars_call_between hat
  rw [hwritten]
  exact hscan.alternate_gapsFrom

end Template

/-! ## The run of an expansion -/

namespace Context

open Template

variable {σ : Type}

/-- The text between two templates is kept, if it is not empty. -/
theorem expandPieces_literal (ctx : Context σ) {text : List Char} {start stop : Nat}
    (hstop : stop ≤ text.length) (later : List Piece) :
    ctx.expandPieces (if start < stop then .literal (slice text start stop) :: later else later) =
      (do return Node.ofChars (text.extract start stop) ++ (← ctx.expandPieces later)) := by
  unfold Node.ofChars
  by_cases hlt : start < stop
  · have hne : text.extract start stop ≠ [] := by
      rw [List.extract_eq_take_drop, ← List.length_pos_iff_ne_nil, List.length_take,
        List.length_drop]
      omega
    rw [if_pos hlt, if_neg hne]
    rfl
  · have hnil : text.extract start stop = [] := by
      rw [List.extract_eq_take_drop, Nat.sub_eq_zero_of_le (Nat.not_lt.mp hlt), List.take_zero]
    rw [if_neg hlt, if_pos hnil]
    simp

/-- Templates of a text become the texts between them and the answers to their calls by turns. -/
theorem expandPieces_piecesFrom (ctx : Context σ) {text : List Char} {os : List Occurrence}
    (hos : ∀ o ∈ os, o.start ≤ text.length) (place : Nat) :
    ctx.expandPieces (piecesFrom text place os) = (do
      let answers ← (os.map Occurrence.call).mapM ctx.resolveTemplate
      return alternate ((gapsFrom text place os).map Node.ofChars) answers) := by
  induction os generalizing place with
  | nil =>
    rw [piecesFrom, expandPieces_literal ctx (Nat.le_refl _), gapsFrom, drop_eq_extract]
    simp [expandPieces, alternate]
  | cons o rest ih =>
    obtain ⟨hfirst, hrest⟩ := List.forall_mem_cons.mp hos
    rw [piecesFrom, expandPieces_literal ctx hfirst, expandPieces, ih hrest, gapsFrom,
      List.map_cons, List.mapM_cons]
    simp [alternate]

/-- An expansion asks for the templates of a text, one after the other, and puts the answers between
what is left of the text. It fails as soon as there is no answer. -/
theorem expandTemplates_scan (ctx : Context σ) {n : Node} {s : String} (hs : n.text? = some s)
    (hscan : scan s ≠ []) :
    ctx.expandTemplates n (scan s) = (do
      let answers ← ((scan s).map Occurrence.call).mapM ctx.resolveTemplate
      return alternate ((gaps s).map Node.ofChars) answers) := by
  have hstart : ∀ o ∈ scan s, o.start ≤ s.toList.length := by
    intro o ho
    obtain ⟨start, stop, hat, rfl⟩ := (leftmost_scan s).exists_templateAt o ho
    exact (hat.around [] []).2.le
  have hsome : (scan s).isEmpty = false := by simpa using hscan
  cases n with
  | stray value => simp [Node.text?] at hs
  | node head info children =>
    obtain ⟨hkind, hvalue⟩ := Node.text?_eq_some.mp hs
    rw [expandTemplates, hkind, hsome, hvalue]
    exact expandPieces_piecesFrom ctx hstart 0

end Context

namespace Run

/-- There are as many results as there were questions. -/
theorem length_of_mapM {σ α β : Type} {f : α → Run σ β} {as : List α} {bs : List β}
    {st st' : State σ} (h : as.mapM f st = .ok bs st') : bs.length = as.length := by
  induction as generalizing bs st st' with
  | nil =>
    obtain ⟨rfl, -⟩ : [] = bs ∧ st = st' := by simpa using h
    rfl
  | cons a rest ih =>
    rw [List.mapM_cons, bind_apply] at h
    cases hfirst : f a st with
    | error fault st₁ => simp [hfirst] at h
    | ok b st₁ =>
      simp only [hfirst, bind_apply] at h
      cases hrest : rest.mapM f st₁ with
      | error fault st₂ => simp [hrest] at h
      | ok others st₂ =>
        obtain ⟨rfl, rfl⟩ : b :: others = bs ∧ st₂ = st' := by simpa [hrest] using h
        rw [List.length_cons, List.length_cons, ih hrest]

end Run

/-! ## Merging what was answered -/

/-- The characters of a text. Other nodes have none. -/
def Node.textChars (n : Node) : List Char := (n.text?.getD "").toList

/-- Whether an answer to a call is the call as it is written, in one text. -/
def TemplateCall.SpelledBy (call : TemplateCall) (answer : List Node) : Prop :=
  ∃ m, answer = [m] ∧ m.text? = some (String.ofList call.chars)

/-- Answers that are what calls are written as are texts with the characters of the calls. -/
theorem TemplateCall.of_spelledBy {calls : List TemplateCall} {answers : List (List Node)}
    (h : List.Forall₂ SpelledBy calls answers) :
    (∀ answer ∈ answers, ∀ n ∈ answer, n.text?.isSome = true) ∧
      answers.map (List.flatMap Node.textChars) = calls.map chars := by
  induction h with
  | nil => exact ⟨by simp, rfl⟩
  | cons hfirst _ ih =>
    obtain ⟨m, rfl, htext⟩ := hfirst
    refine ⟨List.forall_mem_cons.mpr ⟨?_, ih.1⟩, ?_⟩
    · simp [htext]
    · rw [List.map_cons, List.map_cons, ih.2, List.flatMap_singleton, Node.textChars, htext,
        Option.getD_some, String.toList_ofList]

namespace Node

/-- Texts are joined to one, with their characters. -/
theorem mergeText_of_texts {ns : List Node} (hne : ns ≠ [])
    (h : ∀ n ∈ ns, n.text?.isSome = true) :
    ∃ m, mergeText ns = [m] ∧ m.text? = some (String.ofList (ns.flatMap textChars)) := by
  induction ns with
  | nil => exact absurd rfl hne
  | cons n rest ih =>
    obtain ⟨hn, hrest⟩ := List.forall_mem_cons.mp h
    obtain ⟨s, hs⟩ := Option.isSome_iff_exists.mp hn
    have hchars : n.textChars = s.toList := by rw [textChars, hs, Option.getD_some]
    rw [mergeText_cons, List.flatMap_cons, hchars, String.ofList_append, String.ofList_toList]
    cases rest with
    | nil =>
      -- A text that stands alone is kept as it is.
      exact ⟨n, rfl, by simpa using hs⟩
    | cons next others =>
      obtain ⟨m, hm, htext⟩ := ih (by simp) hrest
      rw [hm, prependMerged_of_texts hs htext]
      exact ⟨_, rfl, text?_text _⟩

/-- Texts can be merged, and become one text with their characters. -/
theorem merge_of_texts {ns : List Node} (hne : ns ≠ []) (h : ∀ n ∈ ns, n.text?.isSome = true) :
    ∃ m, merge ns = .ok [m] ∧ m.text? = some (String.ofList (ns.flatMap textChars)) := by
  have hsound : ∀ n ∈ ns, n.isSound = true := by
    intro n hn
    obtain ⟨s, hs⟩ := Option.isSome_iff_exists.mp (h n hn)
    exact isSound_of_text? hs
  obtain ⟨m, hmerged, htext⟩ := mergeText_of_texts hne h
  exact ⟨m, by rw [merge_of_isSound hsound, hmerged], htext⟩

/-- The node of some characters is a text that is not empty. -/
theorem mem_ofChars {cs : List Char} {n : Node} (h : n ∈ ofChars cs) :
    n = text (String.ofList cs) ∧ cs ≠ [] := by
  unfold ofChars at h
  split at h
  · simp at h
  · next hne => exact ⟨List.mem_singleton.mp h, hne⟩

/-- The node of some characters is a text with these characters. -/
theorem flatMap_textChars_ofChars (cs : List Char) : (ofChars cs).flatMap textChars = cs := by
  unfold ofChars
  split
  · next h => exact h.symm
  · simp [textChars, text?_text]

end Node

namespace Template

/-- When the calls of a text are answered with how they are written, merging gives the text. -/
theorem merge_alternate {s : String} (hscan : scan s ≠ []) {answers : List (List Node)}
    (h : List.Forall₂ TemplateCall.SpelledBy ((scan s).map Occurrence.call) answers) :
    ∃ m, Node.merge (alternate ((gaps s).map Node.ofChars) answers) = .ok [m] ∧
      m.text? = some s := by
  obtain ⟨htexts, hanswers⟩ := TemplateCall.of_spelledBy h
  have hgaps : ((gaps s).map Node.ofChars).map (List.flatMap Node.textChars) = gaps s := by
    rw [List.map_map]
    exact List.map_id'' Node.flatMap_textChars_ofChars (gaps s)
  have hchars : (alternate ((gaps s).map Node.ofChars) answers).flatMap Node.textChars =
      s.toList := by
    rw [flatMap_alternate, hgaps, hanswers, List.map_map]
    exact alternate_gaps s
  have hne : alternate ((gaps s).map Node.ofChars) answers ≠ [] := by
    intro hnil
    rw [hnil] at hchars
    obtain rfl : s = "" := String.toList_eq_nil_iff.mp hchars.symm
    exact hscan rfl
  have hall : ∀ n ∈ alternate ((gaps s).map Node.ofChars) answers, n.text?.isSome = true := by
    refine forall_mem_alternate (fun gap hgap n hn => ?_) htexts
    obtain ⟨cs, -, rfl⟩ := List.mem_map.mp hgap
    rw [(Node.mem_ofChars hn).1]
    rfl
  obtain ⟨m, hmerged, htext⟩ := Node.merge_of_texts hne hall
  rw [hchars, String.ofList_toList] at htext
  exact ⟨m, hmerged, htext⟩

end Template

/-! ## What an expansion gives -/

namespace Context

open Template

variable {σ : Type} {ctx : Context σ}

/-- A resolver that answers every call answers calls that are put one after the other. -/
theorem exists_mapM_resolveTemplate
    (h : ∀ call world, (ctx.answer? (.template call) world).isSome = true)
    (calls : List TemplateCall) {st : State σ} (hst : ∀ head ∈ st.stack, head.isRegular = true) :
    ∃ answers after, calls.mapM ctx.resolveTemplate st = .ok answers after := by
  induction calls generalizing st with
  | nil => exact ⟨[], st, rfl⟩
  | cons call rest ih =>
    obtain ⟨⟨nodes, world⟩, hanswer⟩ := Option.isSome_iff_exists.mp (h call st.world)
    obtain ⟨st₁, hfirst, -, hstack, -⟩ := put_of_answer hst hanswer
    obtain ⟨answers, after, hrest⟩ := ih (hstack ▸ hst)
    refine ⟨nodes :: answers, after, ?_⟩
    change ctx.resolveTemplate call st = _ at hfirst
    rw [List.mapM_cons, Run.bind_apply, hfirst]
    simp only [Run.bind_apply, hrest]
    rfl

/-- When the calls of a text are answered, one after the other, the text becomes the answers with
the texts around them. With the templates as they are written, these texts are the text again. None
of them is empty, and no template is found in one. If each answer is how the call is written,
merging gives the text back. -/
theorem expandTemplates_lossless {n : Node} {s : String} (hs : n.text? = some s)
    (hscan : scan s ≠ []) {st after : State σ} {answers : List (List Node)}
    (hanswers : ((scan s).map Occurrence.call).mapM ctx.resolveTemplate st = .ok answers after) :
    let output := alternate ((gaps s).map Node.ofChars) answers
    ctx.expandTemplates n (scan s) st = .ok output after ∧
      answers.length = (scan s).length ∧ (gaps s).length = (scan s).length + 1 ∧
      alternate (gaps s) ((scan s).map fun o => o.call.chars) = s.toList ∧
      (∀ literal ∈ (gaps s).flatMap Node.ofChars,
        ∃ t, literal = Node.text t ∧ t ≠ "" ∧ scan t = []) ∧
      (List.Forall₂ TemplateCall.SpelledBy ((scan s).map Occurrence.call) answers →
        ∃ m, Node.merge output = .ok [m] ∧ m.text? = some s) := by
  refine ⟨?_, ?_, length_gapsFrom s.toList 0 (scan s), alternate_gaps s, ?_,
    merge_alternate hscan⟩
  · rw [expandTemplates_scan ctx hs hscan, Run.bind_apply, hanswers]
    rfl
  · rw [Run.length_of_mapM hanswers, List.length_map]
  · intro literal hliteral
    obtain ⟨gap, hgap, hn⟩ := List.mem_flatMap.mp hliteral
    obtain ⟨rfl, hne⟩ := Node.mem_ofChars hn
    exact ⟨_, rfl, by simpa using hne, scan_of_mem_gaps gap hgap⟩

/-- A context whose resolver for templates answers with how the call is written. -/
def spell : Context Unit where
  link := echo.link
  template := .function fun call world =>
    { outcome := .ok (.list [Node.text (String.ofList call.chars)]), world := world }

/-- A parameter with a key, two templates side by side, and a text at each end. -/
theorem expandTemplates_lossless_spell :
    let s := "a::b|c=d::::e:: f"
    let output := alternate ((gaps s).map Node.ofChars)
      [[Node.text "::b|c=d::"], [Node.text "::e::"]]
    (Node.text s).text? = some s ∧ scan s ≠ [] ∧
      spell.expandTemplates (Node.text s) (scan s) { world := () } = .ok output
        { calls := [.template ⟨"b", [.keyed "c" "d"]⟩, .template ⟨"e", []⟩], world := () } ∧
      ∃ m, Node.merge output = .ok [m] ∧ m.text? = some s := by
  have hscan : scan "a::b|c=d::::e:: f" ≠ [] := by decide
  have hcalls : (scan "a::b|c=d::::e:: f").map Occurrence.call =
      [⟨"b", [.keyed "c" "d"]⟩, ⟨"e", []⟩] := by decide
  have hfirst : String.ofList (TemplateCall.chars ⟨"b", [.keyed "c" "d"]⟩) = "::b|c=d::" := by decide
  have hsecond : String.ofList (TemplateCall.chars ⟨"e", []⟩) = "::e::" := by decide
  have hanswers : ((scan "a::b|c=d::::e:: f").map Occurrence.call).mapM spell.resolveTemplate
      { world := () } = .ok [[Node.text "::b|c=d::"], [Node.text "::e::"]]
        { calls := [.template ⟨"b", [.keyed "c" "d"]⟩, .template ⟨"e", []⟩], world := () } := by
    rw [hcalls, ← hfirst, ← hsecond]
    rfl
  obtain ⟨hrun, -, -, -, -, hmerge⟩ := expandTemplates_lossless (Node.text?_text _) hscan hanswers
  refine ⟨rfl, hscan, hrun, hmerge ?_⟩
  rw [hcalls, ← hfirst, ← hsecond]
  exact .cons ⟨_, rfl, rfl⟩ (.cons ⟨_, rfl, rfl⟩ .nil)

end Context

end Transclude
