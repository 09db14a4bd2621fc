import Transclude.Proofs.Link.Signs
import Transclude.Proofs.Walk.Need
import Transclude.Proofs.Walk.Script

/-!
# Documents with the templates written out

`Node.substituted` is the document in which every text with templates, where a walk finds it, is
replaced by one new text that has values in the places of the templates. `Script.inlined` is a script in
which each template call is answered with one text, the value of the call. `inlined_script` says that
the script of a document with the template calls answered is that of the document with the templates
written out, if no template is in what was written: what the pieces of a text are merged to does not
depend on whether they are joined before or not (`ByMerged`).
-/

namespace Transclude

variable {α β γ : Type}

/-! ## Scripts with the templates answered -/

namespace Script

/-- Scripts go on one after the other. -/
theorem bind_assoc (s : Script α) (f : α → Script β) (g : β → Script γ) :
    (s.bind f).bind g = s.bind fun a => (f a).bind g := by
  induction s with
  | done a => rfl
  | fail fault => rfl
  | tell inner note next ih => exact congrArg (tell inner note) ih
  | ask inner call next ih => exact congrArg (ask inner call) (funext ih)

/-- Whatever is heard, the value that a script gives has a property. -/
def Gives (P : α → Prop) : Script α → Prop
  | .done a => P a
  | .fail _ => True
  | .tell _ _ next => next.Gives P
  | .ask _ _ next => ∀ nodes, (next nodes).Gives P

section Gives

variable {P : α → Prop} {Q : β → Prop} {s : Script α} {f g : α → Script β}

/-- A script gives a value. -/
theorem gives_true : s.Gives fun _ => True := by
  induction s with
  | done a => trivial
  | fail fault => trivial
  | tell inner note next ih => exact ih
  | ask inner call next ih => exact ih

/-- A script that goes on gives what its last part gives. -/
theorem Gives.bind (h : s.Gives P) (hf : ∀ a, P a → (f a).Gives Q) : (s.bind f).Gives Q := by
  induction s with
  | done a => exact hf a h
  | fail fault => trivial
  | tell inner note next ih => exact ih h
  | ask inner call next ih => exact fun nodes => ih nodes (h nodes)

/-- A script gives the same in a container. -/
theorem Gives.under {head : Head} (h : s.Gives P) : (s.under head).Gives P := by
  induction s with
  | done a => exact h
  | fail fault => trivial
  | tell inner note next ih => exact ih h
  | ask inner call next ih => exact fun nodes => ih nodes (h nodes)

/-- A script goes on alike if it does so with every value that it may give. -/
theorem Gives.bind_congr (h : s.Gives P) (hfg : ∀ a, P a → f a = g a) : s.bind f = s.bind g := by
  induction s with
  | done a => exact hfg a h
  | fail fault => rfl
  | tell inner note next ih => exact congrArg (tell inner note) (ih h)
  | ask inner call next ih => exact congrArg (ask inner call) (funext fun nodes => ih nodes (h nodes))

end Gives

/-- A script in which each template call is answered with one new text, the value of the call. -/
def inlined (value : TemplateCall → String) : Script α → Script α
  | .done a => .done a
  | .fail fault => .fail fault
  | .tell inner note next => .tell inner note (next.inlined value)
  | .ask _ (.template call) next => (next [Node.text (value call)]).inlined value
  | .ask inner (.link reference) next =>
    .ask inner (.link reference) fun nodes => (next nodes).inlined value

section Inlined

variable (value : TemplateCall → String)

/-- Templates are answered in each part of a script. -/
theorem inlined_bind (s : Script α) (f : α → Script β) :
    (s.bind f).inlined value = (s.inlined value).bind fun a => (f a).inlined value := by
  induction s with
  | done a => rfl
  | fail fault => rfl
  | tell inner note next ih => exact congrArg (tell inner note) ih
  | ask inner call next ih =>
    cases call with
    | template call => exact ih _
    | link reference => exact congrArg (ask inner (.link reference)) (funext ih)

/-- Templates are answered alike in a container. -/
theorem inlined_under (head : Head) (s : Script α) :
    (s.under head).inlined value = (s.inlined value).under head := by
  induction s with
  | done a => rfl
  | fail fault => rfl
  | tell inner note next ih => exact congrArg (tell (head :: inner) note) ih
  | ask inner call next ih =>
    cases call with
    | template call => exact ih _
    | link reference => exact congrArg (ask (head :: inner) (.link reference)) (funext ih)

/-- A result has no templates. -/
theorem inlined_ofExcept (e : Except Fault α) : (ofExcept e).inlined value = ofExcept e := by
  cases e <;> rfl

/-- The steps for groups ask for links only. -/
theorem inlined_ofSteps_ofGroup (gs : List Link.Group) :
    (ofSteps (gs.map Step.ofGroup)).inlined value = ofSteps (gs.map Step.ofGroup) := by
  induction gs with
  | nil => rfl
  | cons g rest ih =>
    have hrest (kept : List Node) :
        ((ofSteps (rest.map Step.ofGroup)).bind fun others => .done (kept ++ others)).inlined value =
          (ofSteps (rest.map Step.ofGroup)).bind fun others => .done (kept ++ others) := by
      rw [inlined_bind, ih]
      rfl
    rw [List.map_cons]
    cases hstep : Step.ofGroup g with
    | keep nodes => exact hrest nodes
    | tell note nodes => exact congrArg (tell [] note) (hrest nodes)
    | fail fault => rfl
    | ask call =>
      cases call with
      | link reference => exact congrArg (ask [] (.link reference)) (funext hrest)
      | template call =>
        -- A group is never expanded like a template.
        unfold Step.ofGroup at hstep
        split at hstep
        · simp at hstep
        · simp at hstep
        · split at hstep <;> simp at hstep

/-- The end of a container asks for links only. -/
theorem inlined_ending (ns : List Node) : (Node.ending ns).inlined value = Node.ending ns := by
  unfold Node.ending
  rw [inlined_bind, inlined_ofExcept]
  congr 1
  funext merged
  rw [inlined_bind, inlined_ofExcept]
  congr 1
  funext items
  rw [inlined_bind, inlined_ofSteps_ofGroup]
  congr 1
  funext output
  rw [inlined_ofExcept]

end Inlined

end Script

/-! ## Documents with the templates written out -/

/-- A piece of a text with the value of a template in its place. -/
def Template.Piece.written (value : TemplateCall → String) : Template.Piece → String
  | .literal s => s
  | .call template => value template

namespace Node

/-- The pieces of the text of a node, with the values of the templates in their places. -/
def writtenPieces (value : TemplateCall → String) (n : Node) : List String :=
  (Template.pieces (n.text?.getD "") n.templates).map (Template.Piece.written value)

/-- The text of a node with the values of the templates in their places. -/
def expansion (value : TemplateCall → String) (n : Node) : String :=
  String.join (n.writtenPieces value)

mutual

/-- A tree in which every text with templates, in a container that a walk goes into, is replaced by a
new one with the values of the templates in their places. -/
def substituted (value : TemplateCall → String) (tags : Tags) : Node → Node
  | .stray value => .stray value
  | .node head info children =>
    if tags.admits (.node head info children) then
      .node head info (substitutedAll value tags children)
    else .node head info children

/-- Children in which every text with templates is replaced, and those in containers among them. -/
def substitutedAll (value : TemplateCall → String) (tags : Tags) : List Node → List Node
  | [] => []
  | child :: rest =>
    (if child.templates.isEmpty then substituted value tags child
      else text (child.expansion value)) :: substitutedAll value tags rest

end

/-- No text has a template in a container that a walk goes into. -/
def TemplateFree (tags : Tags) (n : Node) : Prop :=
  ∀ p ∈ n.reached tags, ∀ m, at? p n = some m → ∀ child ∈ m.children, child.templates = []

section Substituted

variable {value : TemplateCall → String} {tags : Tags} {n child : Node} {head : Head} {info : Info}
  {children rest : List Node}

/-- What a walk does not go into stays. -/
theorem substituted_of_not_admits (h : tags.admits n = false) : n.substituted value tags = n := by
  cases n with
  | stray value => rw [substituted]
  | node head info children =>
    rw [substituted, h]
    rfl

/-- A child without templates is kept, but for what is in it. -/
theorem substitutedAll_of_no_templates (h : child.templates = []) :
    substitutedAll value tags (child :: rest) =
      child.substituted value tags :: substitutedAll value tags rest := by
  rw [substitutedAll, h]
  rfl

/-- A child with templates is replaced. -/
theorem substitutedAll_of_templates (h : child.templates ≠ []) :
    substitutedAll value tags (child :: rest) =
      text (child.expansion value) :: substitutedAll value tags rest := by
  rw [substitutedAll, if_neg (by simpa using h)]

/-- There are as many children as before. -/
theorem substitutedAll_eq_nil {ns : List Node} : substitutedAll value tags ns = [] ↔ ns = [] := by
  cases ns <;> simp [substitutedAll]

/-- A walk goes into a container with the templates written out if it went into it before. -/
theorem admits_substituted (value : TemplateCall → String)
    (h : tags.admits (.node head info children) = true) :
    tags.admits (.node head info (substitutedAll value tags children)) = true := by
  obtain ⟨hskips, hcontainer, hne⟩ :
      tags.skips head = false ∧ head.isContainer = true ∧ children ≠ [] := by
    simpa [Tags.admits, hasChildren] using h
  simp [Tags.admits, hasChildren, hskips, hcontainer, substitutedAll_eq_nil, hne]

mutual

/-- A well-formed tree is well formed with the templates written out. -/
theorem wellFormed_substituted (value : TemplateCall → String) (tags : Tags) :
    ∀ {n : Node}, n.wellFormed = true → (n.substituted value tags).wellFormed = true
  | .stray value, h => by simp [wellFormed] at h
  | .node head info children, h => by
    cases hadmits : tags.admits (.node head info children) with
    | false =>
      rw [substituted_of_not_admits hadmits]
      exact h
    | true =>
      obtain ⟨hr, hlisted, hchildren⟩ := wellFormed_node.mp h
      rw [substituted, if_pos hadmits]
      refine wellFormed_node.mpr ⟨hr, ?_, allWellFormed_substitutedAll value tags hchildren⟩
      rw [substitutedAll_eq_nil]
      exact hlisted

/-- Well-formed trees are well formed with the templates written out. -/
theorem allWellFormed_substitutedAll (value : TemplateCall → String) (tags : Tags) :
    ∀ {ns : List Node}, allWellFormed ns = true →
      allWellFormed (substitutedAll value tags ns) = true
  | [], h => by
    rw [substitutedAll]
    exact h
  | child :: rest, h => by
    rw [allWellFormed, Bool.and_eq_true] at h
    have hrest := allWellFormed_substitutedAll value tags h.2
    by_cases ht : child.templates = []
    · rw [substitutedAll_of_no_templates ht, allWellFormed, Bool.and_eq_true]
      exact ⟨wellFormed_substituted value tags h.1, hrest⟩
    · rw [substitutedAll_of_templates ht, allWellFormed, Bool.and_eq_true]
      exact ⟨wellFormed_text _, hrest⟩

end

/-- The children of a container without templates have none, nor do the containers among them. -/
theorem TemplateFree.of_admits (hadmits : tags.admits (.node head info children) = true)
    (h : (Node.node head info children).TemplateFree tags) :
    ∀ child ∈ children, child.templates = [] ∧ child.TemplateFree tags := by
  intro child hchild
  refine ⟨h [] (mem_reached.mpr ⟨hadmits, .inl rfl⟩) _ rfl child hchild, fun p hp m hat => ?_⟩
  obtain ⟨i, hi⟩ := List.mem_iff_getElem?.mp hchild
  exact h (i :: p) (mem_reached.mpr ⟨hadmits, .inr ⟨i, child, p, rfl, hi, hp⟩⟩) m
    (at?_cons.mpr ⟨child, hi, hat⟩)

/-- A text with templates has pieces. -/
theorem writtenPieces_ne_nil (h : n.templates ≠ []) : n.writtenPieces value ≠ [] := by
  unfold writtenPieces Template.pieces
  cases hos : n.templates with
  | nil => exact absurd hos h
  | cons o os =>
    rw [Template.piecesFrom]
    split <;> simp

/-- The pieces of a text are merged like the whole of it. -/
theorem mergeText_writtenPieces_append (h : n.templates ≠ []) (ms : List Node) :
    mergeText ((n.writtenPieces value).map text ++ ms) =
      mergeText (text (n.expansion value) :: ms) := by
  rw [mergeText_append, foldr_prependMerged_texts (writtenPieces_ne_nil h), mergeText_cons]
  rfl

/-- The script of the expansion of a text, with the templates answered, gives its pieces. -/
theorem inlined_templateSteps (value : TemplateCall → String) (n : Node) :
    (Script.ofSteps n.templateSteps).inlined value = .done ((n.writtenPieces value).map text) := by
  unfold templateSteps writtenPieces
  induction Template.pieces (n.text?.getD "") n.templates with
  | nil => rfl
  | cons piece rest ih =>
    cases piece with
    | literal s =>
      rw [List.map_cons, Step.ofPiece, Script.ofSteps, Script.inlined_bind, ih]
      rfl
    | call call =>
      rw [List.map_cons, Step.ofPiece, Script.ofSteps, Script.inlined, Script.inlined_bind, ih]
      rfl

/-! ## Scripts give sound nodes -/

/-- A walk through a well-formed tree gives a sound node, whatever is answered. -/
theorem gives_script (hn : n.wellFormed = true) :
    (n.script tags).Gives fun m => m.isSound = true := by
  obtain ⟨head, info, children, rfl, hr⟩ := exists_of_wellFormed hn
  cases hadmits : tags.admits (.node head info children) with
  | false =>
    rw [script_of_not_admits hn hadmits]
    exact isSound_of_wellFormed hn
  | true =>
    rw [script_of_admits hadmits]
    refine Script.Gives.under (Script.gives_true.bind fun given _ => ?_)
    exact isSound_of_isRegular hr info given

/-- A walk through well-formed children without templates gives sound nodes. -/
theorem gives_scripts {ns : List Node} (hns : allWellFormed ns = true)
    (h : ∀ n ∈ ns, n.templates = []) :
    (scripts tags ns).Gives fun ms => ∀ m ∈ ms, m.isSound = true := by
  induction ns with
  | nil =>
    rw [scripts]
    simp [Script.Gives]
  | cons n rest ih =>
    rw [allWellFormed, Bool.and_eq_true] at hns
    obtain ⟨hn, hrest⟩ := List.forall_mem_cons.mp h
    rw [scripts_of_no_templates hn]
    refine (gives_script hns.1).bind fun m hm => (ih hns.2 hrest).bind fun others hothers => ?_
    exact List.forall_mem_cons.mpr ⟨hm, hothers⟩

/-! ## What follows merged nodes -/

/-- Whether what follows some sound nodes depends only on what they are merged to. -/
def ByMerged (k : List Node → Script α) : Prop := ∀ ms ms' : List Node,
  (∀ m ∈ ms, m.isSound = true) → (∀ m ∈ ms', m.isSound = true) → mergeText ms = mergeText ms' →
  k ms = k ms'

/-- Sound nodes in front do not change this. -/
theorem ByMerged.append {k : List Node → Script α} (h : ByMerged k) {front : List Node}
    (hfront : ∀ m ∈ front, m.isSound = true) : ByMerged fun ms => k (front ++ ms) := by
  intro ms ms' hms hms' heq
  refine h _ _ (List.forall_mem_append.mpr ⟨hfront, hms⟩)
    (List.forall_mem_append.mpr ⟨hfront, hms'⟩) ?_
  rw [mergeText_append, mergeText_append, heq]

/-- The end of a container goes by the merged nodes. -/
theorem byMerged_ending : ByMerged ending := by
  intro ms ms' hms hms' heq
  unfold ending
  rw [merge_of_isSound hms, merge_of_isSound hms', heq]

/-- New texts are sound. -/
theorem isSound_of_mem_texts (texts : List String) : ∀ m ∈ texts.map text, m.isSound = true := by
  intro m hm
  obtain ⟨s, -, rfl⟩ := List.mem_map.mp hm
  exact isSound_text s

/-! ## The script of a document with the templates written out -/

mutual

/-- With the templates answered, the script of a well-formed tree is that of the tree with the
templates written out, if no template is in what was written. -/
theorem inlined_script : ∀ {n : Node}, n.wellFormed = true →
    (n.substituted value tags).TemplateFree tags →
    (n.script tags).inlined value = (n.substituted value tags).script tags
  | .stray value, hn, _ => by simp [wellFormed] at hn
  | .node head info children, hn, hfree => by
    cases hadmits : tags.admits (.node head info children) with
    | false =>
      rw [substituted_of_not_admits hadmits, script_of_not_admits hn hadmits]
      rfl
    | true =>
      obtain ⟨-, -, hchildren⟩ := wellFormed_node.mp hn
      have hagain := admits_substituted value hadmits
      rw [substituted, if_pos hadmits] at hfree ⊢
      rw [script_of_admits hadmits, script_of_admits hagain, Script.inlined_under,
        Script.inlined_bind, Script.inlined_bind, funext (Script.inlined_ending value),
        inlined_scripts_bind hchildren (hfree.of_admits hagain) byMerged_ending]
      rfl

/-- With the templates answered, the script of well-formed children is that of the children with the
templates written out, for all that comes after it and goes by the merged nodes. -/
theorem inlined_scripts_bind : ∀ {ns : List Node}, allWellFormed ns = true →
    (∀ child ∈ substitutedAll value tags ns, child.templates = [] ∧ child.TemplateFree tags) →
    ∀ {k : List Node → Script (List Node)}, ByMerged k →
    ((scripts tags ns).inlined value).bind k = (scripts tags (substitutedAll value tags ns)).bind k
  | [], _, _, k, _ => by
    rw [scripts, substitutedAll, scripts]
    rfl
  | child :: rest, hns, hfree, k, hk => by
    rw [allWellFormed, Bool.and_eq_true] at hns
    by_cases ht : child.templates = []
    · rw [substitutedAll_of_no_templates ht] at hfree ⊢
      obtain ⟨⟨hnone, hchild⟩, hrest⟩ := List.forall_mem_cons.mp hfree
      rw [scripts_of_no_templates ht, scripts_of_no_templates hnone, Script.inlined_bind,
        inlined_script hns.1 hchild, Script.bind_assoc, Script.bind_assoc]
      refine (gives_script (wellFormed_substituted value tags hns.1)).bind_congr fun m hm => ?_
      have hfront : ∀ i ∈ [m], i.isSound = true := by simpa using hm
      rw [Script.inlined_bind, Script.bind_assoc, Script.bind_assoc]
      exact inlined_scripts_bind hns.2 hrest (hk.append hfront)
    · rw [substitutedAll_of_templates ht] at hfree ⊢
      obtain ⟨⟨hnone, -⟩, hrest⟩ := List.forall_mem_cons.mp hfree
      have htext := script_of_not_admits (wellFormed_text (child.expansion value))
        (admits_of_text? (text?_text (child.expansion value)) tags)
      have hpieces := isSound_of_mem_texts (child.writtenPieces value)
      have hgives : (scripts tags (substitutedAll value tags rest)).Gives
          fun ms => ∀ m ∈ ms, m.isSound = true :=
        gives_scripts (allWellFormed_substitutedAll value tags hns.2) fun n hn => (hrest n hn).1
      rw [scripts_of_templates ht, scripts_of_no_templates hnone, Script.inlined_bind,
        inlined_templateSteps, htext]
      simp only [Script.bind]
      rw [Script.inlined_bind, Script.bind_assoc, Script.bind_assoc]
      calc ((scripts tags rest).inlined value).bind
              (fun others => k ((child.writtenPieces value).map text ++ others))
          = (scripts tags (substitutedAll value tags rest)).bind
              fun others => k ((child.writtenPieces value).map text ++ others) :=
            inlined_scripts_bind hns.2 hrest (hk.append hpieces)
        _ = (scripts tags (substitutedAll value tags rest)).bind
              fun others => k (text (child.expansion value) :: others) := by
            -- The pieces of the text may be joined before they are merged with what follows.
            refine hgives.bind_congr fun others hothers => hk _ _ ?_ ?_ ?_
            · exact List.forall_mem_append.mpr ⟨hpieces, hothers⟩
            · exact List.forall_mem_cons.mpr ⟨isSound_text _, hothers⟩
            · exact mergeText_writtenPieces_append ht others

end

/-- In a well-formed tree, no text has a template where a walk goes into exactly if no text does in a
container that is reached. -/
theorem templateFree_iff (hn : n.wellFormed = true) : n.TemplateFree tags ↔
    ∀ p m, n.IsReached tags p → at? p n = some m → ¬ HasTemplate m.children := by
  constructor
  · intro h p m hp hat
    exact not_hasTemplate_iff.mpr (h p ((mem_reached_iff_isReached hn).mpr hp) m hat)
  · intro h p hp m hat
    exact not_hasTemplate_iff.mp (h p m ((mem_reached_iff_isReached hn).mp hp) hat)

/-- It can be decided whether a tree is free of templates. -/
instance : Decidable (n.TemplateFree tags) :=
  decidable_of_iff (∀ p ∈ n.reached tags, ∀ m ∈ (at? p n).toList,
    ∀ child ∈ m.children, child.templates = []) <| by
      unfold TemplateFree
      simp only [Option.mem_toList]

end Substituted

end Node

end Transclude
