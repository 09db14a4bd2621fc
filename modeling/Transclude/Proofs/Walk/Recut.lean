import Transclude.Proofs.Walk.Substitute

/-!
# Texts that are cut otherwise

A run of adjacent texts may be cut into text nodes in many ways. `Node.Recut` relates two trees that
differ only in how such runs are cut, in containers that a walk goes into. A walk merges the texts of
a container before it looks for links, and the containers among the children are done by then, so it
cannot tell such trees apart: `script_eq_of_recut` says that their scripts are equal, and
`process_recut` that they are processed alike.
-/

namespace Transclude

variable {σ α : Type}

/-- A script that goes on with the value that it gives is the script itself. -/
theorem Script.bind_done (s : Script α) : s.bind done = s := by
  induction s with
  | done a => rfl
  | fail fault => rfl
  | tell inner note next ih => exact congrArg (tell inner note) ih
  | ask inner call next ih => exact congrArg (ask inner call) (funext ih)

namespace Node

/-! ## Cuts -/

mutual

/-- Two trees that differ only in how runs of adjacent texts are cut, in containers that are not
excluded. -/
inductive Recut (tags : Tags) : Node → Node → Prop
  /-- The trees are the same. -/
  | same (n : Node) : Recut tags n n
  /-- The children of a container are cut otherwise. -/
  | inside {head : Head} {info : Info} {children children' : List Node} :
      tags.skips head = false → RecutAmong tags children children' →
      Recut tags (.node head info children) (.node head info children')

/-- Two lists of children that differ only in how runs of adjacent texts are cut, among them and in
the containers among them. -/
inductive RecutAmong (tags : Tags) : List Node → List Node → Prop
  /-- There are no more children. -/
  | nil : RecutAmong tags [] []
  /-- A child corresponds to a child. -/
  | cons {n n' : Node} {ns ns' : List Node} : Recut tags n n' → RecutAmong tags ns ns' →
      RecutAmong tags (n :: ns) (n' :: ns')
  /-- Some texts, one at least, correspond to some texts that make up the same text. -/
  | run {texts texts' : List String} {ns ns' : List Node} : texts ≠ [] → texts' ≠ [] →
      String.join texts = String.join texts' → RecutAmong tags ns ns' →
      RecutAmong tags (texts.map text ++ ns) (texts'.map text ++ ns')

end

variable {tags : Tags} {ns ns' : List Node}

/-- There are children after a cut if there were some before. -/
theorem RecutAmong.eq_nil_iff (h : RecutAmong tags ns ns') : ns = [] ↔ ns' = [] := by
  cases h with
  | nil => exact Iff.rfl
  | cons _ _ => simp
  | run htexts htexts' _ _ => simp [htexts, htexts']

/-! ## Texts that make up the same text -/

/-- New texts are merged with what follows as the text that they make up. -/
theorem mergeText_texts_append {texts texts' : List String} (h : texts ≠ []) (h' : texts' ≠ [])
    (hjoin : String.join texts = String.join texts') (ms : List Node) :
    mergeText (texts.map text ++ ms) = mergeText (texts'.map text ++ ms) := by
  rw [mergeText_append, mergeText_append, foldr_prependMerged_texts h,
    foldr_prependMerged_texts h', hjoin]

/-! ## The script of a tree that is cut otherwise -/

/-- A walk through texts without templates keeps them. -/
theorem scripts_texts_append (texts : List String) (ns : List Node)
    (h : ∀ m ∈ texts.map text, m.templates = []) :
    scripts tags (texts.map text ++ ns) =
      (scripts tags ns).bind fun others => .done (texts.map text ++ others) := by
  induction texts with
  | nil => exact (Script.bind_done _).symm
  | cons s rest ih =>
    have hfirst : (text s).templates = [] := h (text s) (by simp)
    have hrest := ih fun m hm => h m (by simp [hm])
    have hscript := script_of_not_admits (wellFormed_text s) (admits_of_text? (text?_text s) tags)
    rw [List.map_cons, List.cons_append, scripts_of_no_templates hfirst, hscript, hrest]
    simp only [Script.bind, Script.bind_assoc, List.cons_append]

mutual

/-- Well-formed trees without templates that differ only in how texts are cut have the same
script. -/
theorem script_eq_of_recut : ∀ {n n' : Node}, Recut tags n n' → n.wellFormed = true →
    n'.wellFormed = true → n.TemplateFree tags → n'.TemplateFree tags →
    n.script tags = n'.script tags
  | _, _, .same n, _, _, _, _ => rfl
  | .node head info children, .node _ _ children', .inside hskips hcut, hn, hn', hfree, hfree' => by
    by_cases hnil : children = []
    · obtain rfl := hnil
      obtain rfl := hcut.eq_nil_iff.mp rfl
      rfl
    · have hadmits := (admits_iff_of_wellFormed hn).mpr ⟨hnil, hskips⟩
      have hnil' : children' ≠ [] := fun h => hnil (hcut.eq_nil_iff.mpr h)
      have hadmits' := (admits_iff_of_wellFormed hn').mpr ⟨hnil', hskips⟩
      obtain ⟨-, -, hchildren⟩ := wellFormed_node.mp hn
      obtain ⟨-, -, hchildren'⟩ := wellFormed_node.mp hn'
      rw [script_of_admits hadmits, script_of_admits hadmits',
        scripts_bind_eq_of_recut hcut hchildren hchildren' (hfree.of_admits hadmits)
          (hfree'.of_admits hadmits') byMerged_ending]

/-- The scripts of well-formed children without templates that differ only in how texts are cut go on
alike, if what follows goes by the merged nodes. -/
theorem scripts_bind_eq_of_recut : ∀ {ns ns' : List Node}, RecutAmong tags ns ns' →
    allWellFormed ns = true → allWellFormed ns' = true →
    (∀ child ∈ ns, child.templates = [] ∧ child.TemplateFree tags) →
    (∀ child ∈ ns', child.templates = [] ∧ child.TemplateFree tags) →
    ∀ {k : List Node → Script (List Node)}, ByMerged k →
    (scripts tags ns).bind k = (scripts tags ns').bind k
  | _, _, .nil, _, _, _, _, _, _ => rfl
  | n :: ns, n' :: ns', .cons hcut hcuts, hns, hns', hfree, hfree', k, hk => by
    rw [allWellFormed, Bool.and_eq_true] at hns hns'
    obtain ⟨⟨hnone, hchild⟩, hrest⟩ := List.forall_mem_cons.mp hfree
    obtain ⟨⟨hnone', hchild'⟩, hrest'⟩ := List.forall_mem_cons.mp hfree'
    have hfirst := script_eq_of_recut hcut hns.1 hns'.1 hchild hchild'
    rw [scripts_of_no_templates hnone, scripts_of_no_templates hnone', hfirst, Script.bind_assoc,
      Script.bind_assoc]
    refine (gives_script hns'.1).bind_congr fun m hm => ?_
    have hfront : ∀ i ∈ [m], i.isSound = true := by simpa using hm
    rw [Script.bind_assoc, Script.bind_assoc]
    exact scripts_bind_eq_of_recut hcuts hns.2 hns'.2 hrest hrest' (hk.append hfront)
  | _, _, @RecutAmong.run _ texts texts' ns ns' htexts htexts' hjoin hcuts, hns, hns', hfree, hfree',
      k, hk => by
    obtain ⟨hnone, hrest⟩ := List.forall_mem_append.mp hfree
    obtain ⟨hnone', hrest'⟩ := List.forall_mem_append.mp hfree'
    have hwell : allWellFormed ns = true :=
      allWellFormed_iff.mpr fun m hm => allWellFormed_iff.mp hns m (by simp [hm])
    have hwell' : allWellFormed ns' = true :=
      allWellFormed_iff.mpr fun m hm => allWellFormed_iff.mp hns' m (by simp [hm])
    have hgives : (scripts tags ns').Gives fun ms => ∀ m ∈ ms, m.isSound = true :=
      gives_scripts hwell' fun m hm => (hrest' m hm).1
    rw [scripts_texts_append texts ns fun m hm => (hnone m hm).1,
      scripts_texts_append texts' ns' fun m hm => (hnone' m hm).1, Script.bind_assoc,
      Script.bind_assoc]
    calc (scripts tags ns).bind (fun others => k (texts.map text ++ others))
        = (scripts tags ns').bind fun others => k (texts.map text ++ others) :=
          scripts_bind_eq_of_recut hcuts hwell hwell' hrest hrest'
            (hk.append (isSound_of_mem_texts texts))
      _ = (scripts tags ns').bind fun others => k (texts'.map text ++ others) := by
          -- What comes after either run is merged with the same text.
          refine hgives.bind_congr fun others hothers => hk _ _ ?_ ?_ ?_
          · exact List.forall_mem_append.mpr ⟨isSound_of_mem_texts texts, hothers⟩
          · exact List.forall_mem_append.mpr ⟨isSound_of_mem_texts texts', hothers⟩
          · exact mergeText_texts_append htexts htexts' hjoin others

end

end Node

/-! ## Runs -/

namespace Context

open Node

variable {ctx : Context σ}

/-- Walks through well-formed trees with the same script end in the same way and in the same state.
If they come to their end, they give the same tree. -/
theorem visit_congr_of_script {n n' : Node} (hn : n.wellFormed = true) (hn' : n'.wellFormed = true)
    (h : n.script ctx.excluded = n'.script ctx.excluded) (st : State σ)
    (hst : ∀ head ∈ st.stack, head.isRegular = true) :
    (ctx.visit n st).fault = (ctx.visit n' st).fault ∧
      (ctx.visit n st).state = (ctx.visit n' st).state ∧
      ((ctx.visit n st).fault = none → (ctx.visit n st).value = (ctx.visit n' st).value) := by
  have hrun := ctx.visit_eq_run hn st hst
  have hrun' := ctx.visit_eq_run hn' st hst
  rw [← h] at hrun'
  cases hscript : (n.script ctx.excluded).run ctx st with
  | ok m st' =>
    rw [hscript] at hrun hrun'
    dsimp only at hrun hrun'
    rw [hrun, hrun']
    exact ⟨rfl, rfl, fun _ => rfl⟩
  | error fault st' =>
    rw [hscript] at hrun hrun'
    refine ⟨hrun.1.trans hrun'.1.symm, hrun.2.trans hrun'.2.symm, fun hnone => ?_⟩
    simp [hrun.1] at hnone

/-- How the text of a document is cut into text nodes does not matter for its links. Two well-formed
documents differ only in how runs of adjacent texts are cut, in containers that are reached: each run
may be cut into any texts, at least one, that make up the same text, and some of them may be empty. No
text that is reached has a template in either of them. Then both are processed alike, whatever the
resolvers are and do: the same calls are made, with the same references, the same messages are recorded
and written to the log, and both runs fail in the same way or both come to their end. If they do, they
give the same tree. -/
theorem process_recut {t t' : Node} (ht : t.wellFormed = true) (ht' : t'.wellFormed = true)
    (h : t.Recut ctx.excluded t')
    (hfree : ∀ p n, t.IsReached ctx.excluded p → at? p t = some n → ¬ HasTemplate n.children)
    (hfree' : ∀ p n, t'.IsReached ctx.excluded p → at? p t' = some n → ¬ HasTemplate n.children)
    (st : State σ) :
    (ctx.process t st).fault = (ctx.process t' st).fault ∧
      (ctx.process t st).state = (ctx.process t' st).state ∧
      ((ctx.process t st).fault = none →
        (ctx.process t st).value = (ctx.process t' st).value) := by
  have hscript := script_eq_of_recut h ht ht' ((templateFree_iff ht).mpr hfree)
    ((templateFree_iff ht').mpr hfree')
  rw [process_of_wellFormed ht, process_of_wellFormed ht']
  exact visit_congr_of_script ht ht' hscript (fresh st) (isRegular_of_mem_fresh st)

/-- A document with two links whose delimiters are cut in half, and an empty text after one of
them. -/
def cutThrough : Node :=
  .root [.text "a [", .text "[b", .text "", .text "]] c",
    .element "p" [] [.text "[[", .text "", .text "x]", .text "]"]]

/-- The same document with each text in one piece. -/
def inOnePiece : Node := .root [.text "a [[b]] c", .element "p" [] [.text "[[x]]"]]

/-- Both links are found where their delimiters are cut in half. -/
theorem process_recut_cutThrough :
    cutThrough.Recut echo.excluded inOnePiece ∧
      (echo.process cutThrough { world := () }).state =
        (echo.process inOnePiece { world := () }).state ∧
      (echo.process cutThrough { world := () }).value =
        (echo.process inOnePiece { world := () }).value ∧
      (echo.process inOnePiece { world := () }).state.calls.length = 2 := by
  have hinner : RecutAmong echo.excluded
      [.text "[[", .text "", .text "x]", .text "]"] [.text "[[x]]"] :=
    @RecutAmong.run _ ["[[", "", "x]", "]"] ["[[x]]"] [] [] (by simp) (by simp) (by decide) .nil
  have hbelow : Recut echo.excluded
      (.element "p" [] [.text "[[", .text "", .text "x]", .text "]"])
      (.element "p" [] [.text "[[x]]"]) := .inside (by decide +kernel) hinner
  have hcut : cutThrough.Recut echo.excluded inOnePiece :=
    .inside rfl (@RecutAmong.run _ ["a [", "[b", "", "]] c"] ["a [[b]] c"] _ _ (by simp) (by simp)
      (by decide) (.cons hbelow .nil))
  have hwell : cutThrough.wellFormed = true := by decide
  have hwell' : inOnePiece.wellFormed = true := by decide
  have hfree : cutThrough.TemplateFree echo.excluded := by decide +kernel
  have hfree' : inOnePiece.TemplateFree echo.excluded := by decide +kernel
  obtain ⟨-, hstate, hvalue⟩ := process_recut hwell hwell' hcut ((templateFree_iff hwell).mp hfree)
    ((templateFree_iff hwell').mp hfree') { world := () }
  exact ⟨hcut, hstate, hvalue (by decide +kernel), by decide +kernel⟩

end Context

end Transclude
