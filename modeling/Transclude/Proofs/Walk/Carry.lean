import Transclude.Proofs.Tree.Roundtrip
import Transclude.Proofs.Walk.Settle

/-!
# What texts carry through a walk

A walk cuts the texts that have a delimiter and mends them, by which they become new texts. So a tree
that was read from a complete form without adjacent texts, walked without a call and written again
is like what it was before exactly if no text that was cut carried anything, and no absent data were
stated: `encode_process_of_no_calls`.
-/

namespace Transclude

namespace Node

/-- It can be decided whether the texts of a list are apart. -/
instance (ns : List Node) : Decidable (Apart ns) :=
  inferInstanceAs (Decidable (ns.IsChain fun m n => m.text? = none ∨ n.text? = none))

mutual

/-- Whether no two adjacent texts are children of the same node of a tree. -/
def textsApart : Node → Bool
  | .stray _ => true
  | .node _ _ children => decide (Apart children) && allTextsApart children

/-- Whether no two adjacent texts are children of the same node of some trees. -/
def allTextsApart : List Node → Bool
  | [] => true
  | n :: rest => textsApart n && allTextsApart rest

end

mutual

/-- Whether the texts that a walk of a tree cuts carry nothing. -/
def cutsBlank (tags : Tags) : Node → Bool
  | .stray _ => true
  | .node head info children =>
    !tags.admits (.node head info children) || allCutsBlank tags children

/-- Whether texts that are cut carry nothing, among the children that a walk meets and below. -/
def allCutsBlank (tags : Tags) : List Node → Bool
  | [] => true
  | n :: rest => (!Link.isCut n || n.info.isBlank) && cutsBlank tags n && allCutsBlank tags rest

end

/-! ## Settled trees -/

/-- A node is no text after a walk unless it was one before. -/
theorem text?_settled (tags : Tags) (n : Node) : (n.settled tags).text? = n.text? := by
  cases hadmits : tags.admits n with
  | false => rw [settled_of_not_admits hadmits]
  | true =>
    cases n with
    | stray value => rw [settled]
    | node head info children =>
      rw [settled, if_pos hadmits, text?_eq_none_of_admits hadmits,
        text?_eq_none_of_admits hadmits]

/-- Texts that are apart are apart after a walk. -/
theorem apart_settledAll (tags : Tags) {ns : List Node} (h : Apart ns) :
    Apart (settledAll tags ns) := by
  unfold Apart at h ⊢
  induction ns with
  | nil => exact List.isChain_nil
  | cons n rest ih =>
    cases rest with
    | nil => exact List.isChain_singleton _
    | cons m others =>
      obtain ⟨hnm, hrest⟩ := List.isChain_cons_cons.mp h
      refine List.isChain_cons_cons.mpr ⟨?_, ih hrest⟩
      rw [text?_settled, text?_settled]
      exact hnm

/-- A container without adjacent texts has its children, each by itself, after a walk. -/
theorem settled_of_admits {tags : Tags} {head : Head} {info : Info} {children : List Node}
    (hadmits : tags.admits (.node head info children) = true) (hapart : Apart children) :
    (Node.node head info children).settled tags =
      .node head info ((settledAll tags children).map Link.refresh) := by
  rw [settled, if_pos hadmits, mergeText_of_apart (apart_settledAll tags hapart)]

/-- A walk cuts no text of a tree that it does not go into. -/
theorem cutsBlank_of_not_admits {tags : Tags} {n : Node} (h : tags.admits n = false) :
    n.cutsBlank tags = true := by
  cases n with
  | stray value => rw [cutsBlank]
  | node head info children => rw [cutsBlank, h, Bool.not_false, Bool.true_or]

/-! ## Writing settled trees -/

/-- A child that has settled is cut and mended. It is then written as a value like the form that it
was read from if it was so before, and carried nothing if it is a text that was cut. -/
theorem encode_refresh_settled {tags : Tags} {n : Node} {d : Value} (h : d.Encodes n)
    (hsettled : ∃ d', encode (n.settled tags) = .ok d' ∧
      (d'.Alike d ↔ d.keepsData = true ∧ n.cutsBlank tags = true)) :
    ∃ d', encode (Link.refresh (n.settled tags)) = .ok d' ∧
      (d'.Alike d ↔ d.keepsData = true ∧
        ((!Link.isCut n || n.info.isBlank) = true ∧ n.cutsBlank tags = true)) := by
  cases hcut : Link.isCut n with
  | false =>
    have hn : Link.isCut (n.settled tags) = false := by
      rw [Link.isCut, text?_settled]
      exact hcut
    rw [Link.refresh_of_not_isCut hn]
    simpa using hsettled
  | true =>
    obtain ⟨s, htext⟩ : ∃ s, n.text? = some s := by
      cases htext : n.text? with
      | none => simp [Link.isCut, htext] at hcut
      | some s => exact ⟨s, rfl⟩
    have hadmits := admits_of_text? htext tags
    obtain ⟨d', hrun, halike⟩ := encode_text_of_encodes h htext
    rw [settled_of_not_admits hadmits, Link.refresh_of_isCut htext hcut,
      cutsBlank_of_not_admits hadmits]
    exact ⟨d', hrun, by simpa using halike⟩

mutual

/-- A tree that was read from a complete form and has settled is written as a value like that form
unless the form states absent data or a text that was cut carried something. -/
theorem encode_settled (tags : Tags) : ∀ {n : Node} {d : Value}, d.Encodes n →
    n.textsApart = true → ∃ d', encode (n.settled tags) = .ok d' ∧
      (d'.Alike d ↔ d.keepsData = true ∧ n.cutsBlank tags = true)
  | .node head info children, d, hencodes, hapart => by
    cases hadmits : tags.admits (.node head info children) with
    | false =>
      obtain ⟨d', hrun, halike⟩ := encode_of_encodes hencodes
      rw [settled_of_not_admits hadmits]
      refine ⟨d', hrun, ?_⟩
      simp [halike, cutsBlank, hadmits]
    | true =>
      rw [textsApart, Bool.and_eq_true, decide_eq_true_eq] at hapart
      rw [settled_of_admits hadmits hapart.1]
      cases hencodes with
      | @node fields items _ _ h hchildren =>
        obtain ⟨others, hrun, halike⟩ := encodeAll_settledAll tags hchildren hapart.2
        refine ⟨_, encode_of_isRegular h.stated.regular _ hrun, ?_⟩
        rw [Value.alike_form_of_lists h, halike, Value.keepsData, Value.everyNode_of_lists _ h,
          Bool.and_eq_true, cutsBlank, hadmits, Bool.not_true, Bool.false_or, and_assoc]
        rintro rfl
        cases hchildren
        simpa [settledAll, encodeAll] using hrun.symm

/-- Children that were read from complete forms and have settled are written as values like these
forms unless they state absent data or a text that was cut carried something. -/
theorem encodeAll_settledAll (tags : Tags) : ∀ {ns : List Node} {items : List Value},
    List.Forall₂ Value.Encodes items ns → allTextsApart ns = true →
    ∃ others, encodeAll ((settledAll tags ns).map Link.refresh) = .ok others ∧
      (List.Forall₂ Value.Alike others items ↔
        Value.everyNodeAmong Fields.keepsData items = true ∧ allCutsBlank tags ns = true)
  | [], [], .nil, _ => ⟨[], rfl, by simp [Value.everyNodeAmong, allCutsBlank]⟩
  | n :: ns, item :: items, .cons h hs, hapart => by
    rw [allTextsApart, Bool.and_eq_true] at hapart
    obtain ⟨others, hruns, hrest⟩ := encodeAll_settledAll tags hs hapart.2
    obtain ⟨other, hrun, halike⟩ := encode_refresh_settled h (encode_settled tags h hapart.1)
    refine ⟨other :: others, ?_, ?_⟩
    · rw [settledAll, List.map_cons, encodeAll, hrun, hruns]
      rfl
    · rw [List.forall₂_cons, halike, hrest, Value.everyNodeAmong, allCutsBlank, Bool.and_eq_true,
        Bool.and_eq_true, Bool.and_eq_true, Value.keepsData]
      tauto

end

end Node

namespace Context

variable {σ : Type} (ctx : Context σ)

/-- A complete form without adjacent texts can be read. If the tree is processed without a call and
without a failure, it can be written again, and is written as a value like the form it was read from
exactly if no node states absent data and no text that was cut carried anything. -/
theorem encode_process_of_no_calls {d : Value} (hd : d.isComplete = true) :
    ∃ t, Node.decode d = .ok t ∧ (t.textsApart = true → ∀ st : State σ,
      (ctx.process t st).fault = none → (ctx.process t st).state.calls = st.calls →
      ∃ d', Node.encode (ctx.process t st).value = .ok d' ∧
        (d'.Alike d ↔ d.keepsData = true ∧ t.cutsBlank ctx.excluded = true)) := by
  obtain ⟨t, hdecode, hencodes⟩ := Node.exists_decode hd
  refine ⟨t, hdecode, fun hapart st hfault hcalls => ?_⟩
  rw [value_process_of_no_calls (Node.wellFormed_of_encodes hencodes) hfault hcalls]
  exact Node.encode_settled ctx.excluded hencodes hapart

/-- The form of a document with a position at a text, and a stray delimiter in another one. -/
def positioned (s : String) : Value :=
  .obj [("type", .str "root"), ("data", .int 1), ("children", .arr
    [.obj [("position", .obj [("start", .int 1)]), ("type", .str "text"), ("value", .str s)],
      .obj [("type", .str "element"), ("tagName", .str "em"), ("properties", .obj []),
        ("children", .arr [.obj [("type", .str "text"), ("value", .str "b [[")]])]])]

/-- The document itself. -/
def positionedTree (s : String) : Node :=
  .node .root ⟨.int 1, []⟩
    [.node (.text s) ⟨.null, [("position", .obj [("start", .int 1)])]⟩ [],
      .element "em" [] [.text "b [["]]

/-- A position is kept at a text without delimiters. -/
theorem encode_process_of_no_calls_positioned :
    (positioned "a").isComplete = true ∧ (positionedTree "a").textsApart = true ∧
      (echo.process (positionedTree "a") { world := () }).fault = none ∧
      (echo.process (positionedTree "a") { world := () }).state.calls = [] ∧
      Node.decode (positioned "a") = .ok (positionedTree "a") ∧
      ∃ d', Node.encode (echo.process (positionedTree "a") { world := () }).value = .ok d' ∧
        d'.Alike (positioned "a") := by
  have hcomplete : (positioned "a").isComplete = true := by decide
  have hapart : (positionedTree "a").textsApart = true := by decide
  have hfault : (echo.process (positionedTree "a") { world := () }).fault = none := by
    decide +kernel
  have hcalls : (echo.process (positionedTree "a") { world := () }).state.calls = [] := by
    decide +kernel
  have htree : Node.decode (positioned "a") = .ok (positionedTree "a") := rfl
  obtain ⟨t, hdecode, h⟩ := encode_process_of_no_calls echo hcomplete
  obtain rfl := Except.ok.inj (hdecode.symm.trans htree)
  obtain ⟨d', hrun, halike⟩ := h hapart _ hfault hcalls
  have hkeeps : (positioned "a").keepsData = true := by decide
  have hblank : (positionedTree "a").cutsBlank echo.excluded = true := by decide +kernel
  exact ⟨hcomplete, hapart, hfault, hcalls, htree, d', hrun, halike.mpr ⟨hkeeps, hblank⟩⟩

/-- A position is lost at a text with a stray delimiter. -/
theorem encode_process_stray_positioned :
    (positioned "a [[ b").isComplete = true ∧ (positionedTree "a [[ b").textsApart = true ∧
      (echo.process (positionedTree "a [[ b") { world := () }).fault = none ∧
      (echo.process (positionedTree "a [[ b") { world := () }).state.calls = [] ∧
      Node.decode (positioned "a [[ b") = .ok (positionedTree "a [[ b") ∧
      ∃ d', Node.encode (echo.process (positionedTree "a [[ b") { world := () }).value = .ok d' ∧
        ¬ d'.Alike (positioned "a [[ b") := by
  have hcomplete : (positioned "a [[ b").isComplete = true := by decide
  have hapart : (positionedTree "a [[ b").textsApart = true := by decide
  have hfault : (echo.process (positionedTree "a [[ b") { world := () }).fault = none := by
    decide +kernel
  have hcalls : (echo.process (positionedTree "a [[ b") { world := () }).state.calls = [] := by
    decide +kernel
  have htree : Node.decode (positioned "a [[ b") = .ok (positionedTree "a [[ b") := rfl
  obtain ⟨t, hdecode, hencodes⟩ := Node.exists_decode hcomplete
  obtain rfl := Except.ok.inj (hdecode.symm.trans htree)
  obtain ⟨d', hrun, halike⟩ := Node.encode_settled echo.excluded hencodes hapart
  have hvalue := value_process_of_no_calls (Node.wellFormed_of_encodes hencodes) hfault hcalls
  have hcut : ¬ (positionedTree "a [[ b").cutsBlank echo.excluded = true := by decide +kernel
  rw [← hvalue] at hrun
  exact ⟨hcomplete, hapart, hfault, hcalls, htree, d', hrun, fun h => hcut (halike.mp h).2⟩

end Context

end Transclude
