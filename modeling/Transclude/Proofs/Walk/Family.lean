import Transclude.Proofs.Tree.Stencil
import Transclude.Proofs.Walk.Responsive

/-!
# Families of trees around a node

When a node is chosen that is no text, and stands at certain places in some trees, then what is done
with these trees goes the same way whatever the node is: the same texts are merged, cut and
searched, the same groups are formed, and the same links are asked for. So all that comes of a
family of trees around the node is again a family around it. This module says so for the steps of
the links of a list (`around_linkSteps`) and for those of the templates of a text
(`around_templateSteps`).
-/

namespace Transclude

variable {X : Type}

/-! ## Nodes -/

namespace Node

/-- A family of fit nodes that are one stencil, filled with the chosen node. -/
structure Around (e f : X → Node) : Prop where
  /-- The nodes are one stencil. -/
  stencil : ∃ o : Stencil, ∀ x, f x = o.fill [e x]
  /-- The nodes are fit. -/
  fit : ∀ x, (f x).isFit = true

variable {e f : X → Node} {fs : X → List Node}

/-- A fit node that has nothing to do with the chosen one. -/
theorem around_const {n : Node} (h : n.isFit = true) : Around e fun _ => n :=
  ⟨⟨n.stencil, fun x => (fill_stencil [e x] n).symm⟩, fun _ => h⟩

/-- A new text. -/
theorem around_text (s : String) : Around e fun _ => text s := around_const (isFit_text s)

/-- The chosen node itself. -/
theorem around_self (h : ∀ x, (e x).isFit = true) : Around e e := ⟨⟨.given 0, fun _ => rfl⟩, h⟩

/-- The members of aligned families around a node are fit. -/
theorem isFit_of_aligned (h : Aligned (Around e) fs) : ∀ x, ∀ n ∈ fs x, n.isFit = true :=
  h.forall_mem fun _ hf => hf.fit

/-- Aligned families around a node are described by stencils. -/
theorem exists_stencils (h : Aligned (Around e) fs) :
    ∃ os : List Stencil, ∀ x, fs x = os.map (Stencil.fill [e x]) :=
  h.exists_list fun _ hf => hf.stencil

/-- A node with children around another. -/
theorem around_node {head : Head} {info : Info} (hr : head.isRegular = true)
    (h : Aligned (Around e) fs) : Around e fun x => .node head info (fs x) := by
  obtain ⟨os, hos⟩ := exists_stencils h
  refine ⟨⟨.node head info os, fun x => ?_⟩, fun x => ?_⟩
  · rw [Stencil.fill, Stencil.fillAll_eq_map, hos]
  · exact isFit_of_isRegular hr (isFit_of_aligned h x)

/-- Whether a node around one that is no text has a text, and which, is the same whatever is
chosen. -/
theorem Around.exists_text? (he : ∀ x, (e x).text? = none) (h : Around e f) :
    ∃ t, ∀ x, (f x).text? = t := by
  obtain ⟨o, ho⟩ := h.stencil
  cases o with
  | node head info children =>
    refine ⟨(Node.node head info []).text?, fun x => ?_⟩
    rw [ho, Stencil.fill]
    rfl
  | stray value =>
    refine ⟨none, fun x => ?_⟩
    rw [ho, Stencil.fill]
    rfl
  | given i =>
    refine ⟨none, fun x => ?_⟩
    rw [ho, Stencil.fill]
    cases i with
    | zero => exact he x
    | succ i => rfl

/-- A node is put in front of merged nodes in the same way whatever is chosen. -/
theorem around_prependMerged (he : ∀ x, (e x).text? = none) (hf : Around e f)
    (h : Aligned (Around e) fs) : Aligned (Around e) fun x => prependMerged (f x) (fs x) := by
  cases h with
  | nil => exact .singleton hf
  | @cons g gs hg hgs =>
    obtain ⟨t, ht⟩ := hf.exists_text? he
    obtain ⟨u, hu⟩ := hg.exists_text? he
    simp only [prependMerged, ht, hu]
    cases t with
    | none => exact .cons hf (.cons hg hgs)
    | some s =>
      cases u with
      | none => exact .cons hf (.cons hg hgs)
      | some s' => exact .cons (around_text (s ++ s')) hgs

/-- Texts are merged in the same way whatever is chosen. -/
theorem around_mergeText (he : ∀ x, (e x).text? = none) (h : Aligned (Around e) fs) :
    Aligned (Around e) fun x => mergeText (fs x) := by
  induction h with
  | nil => exact .nil
  | cons hf _ ih => exact around_prependMerged he hf ih

end Node

open Node

/-! ## References and calls -/

/-- A family of references to the same place, with the same nodes to display around the chosen
one. -/
inductive LinkReference.Around (e : X → Node) : (X → LinkReference) → Prop where
  /-- References. -/
  | mk (file : String) (id : Option String) {nodes : X → List Node} :
    Aligned (Node.Around e) nodes → Around e fun x => ⟨file, id, nodes x⟩

/-- A family of calls of the same template with the same parameters, or of calls for links to the
same place, with the same nodes around the chosen one. -/
inductive Call.Around (e : X → Node) : (X → Call) → Prop where
  /-- Calls for links. -/
  | link {reference : X → LinkReference} :
    LinkReference.Around e reference → Around e fun x => .link (reference x)
  /-- Template calls. -/
  | template (call : TemplateCall) : Around e fun _ => .template call

variable {e : X → Node}

/-- A text followed by nodes around the chosen one makes the same reference, whatever is chosen. -/
theorem LinkReference.around_ofText? (cs : List Char) {ns : X → List Node}
    (h : Aligned (Node.Around e) ns) :
    (∀ x, ofText? cs (ns x) = none) ∨
      ∃ reference, LinkReference.Around e reference ∧
        ∀ x, ofText? cs (ns x) = some (reference x) := by
  unfold ofText?
  by_cases hfile : cs.takeWhile isFileChar = []
  · exact .inl fun x => by rw [if_pos hfile]
  · simp only [if_neg hfile]
    right
    cases (optionalPart '|' isDisplayChar
      (optionalPart '#' isIdChar (cs.dropWhile isFileChar)).2).1 with
    | none => exact ⟨_, .mk _ _ h, fun x => rfl⟩
    | some shown => exact ⟨_, .mk _ _ (.cons (around_text _) h), fun x => rfl⟩

/-! ## Items and groups -/

namespace Link

/-- A family of items that are the same delimiter, or nodes around the chosen one. -/
inductive Item.Around (e : X → Node) : (X → Item) → Prop where
  /-- Nodes. -/
  | node {f : X → Node} : Node.Around e f → Around e fun x => .node (f x)
  /-- A delimiter. -/
  | delimiter (d : Delimiter) : Around e fun _ => .delimiter d

/-- A family of groups of nodes around the chosen one, between the same delimiters. -/
inductive Group.Around (e : X → Node) : (X → Group) → Prop where
  /-- Groups. -/
  | mk (start stop : Nat) (opened closed : Bool) {nodes : X → List Node} :
    Aligned (Node.Around e) nodes → Around e fun x => ⟨start, stop, opened, closed, nodes x⟩

/-- A node is cut in the same way whatever is chosen. -/
theorem around_itemsOf (he : ∀ x, (e x).text? = none) {f : X → Node} (hf : Node.Around e f) :
    Aligned (Item.Around e) fun x => itemsOf (f x) := by
  obtain ⟨t, ht⟩ := hf.exists_text? he
  simp only [itemsOf, ht]
  cases t with
  | none => exact .singleton (.node hf)
  | some s =>
    dsimp only
    split
    · refine .const fun item hitem => ?_
      obtain ⟨token, -, rfl⟩ := List.mem_map.mp hitem
      cases token with
      | text cs => exact .node (around_text _)
      | delimiter d => exact .delimiter d
    · exact .singleton (.node hf)

/-- Items are divided into groups in the same way whatever is chosen. -/
theorem around_groupsFrom {items : X → List Item} (h : Aligned (Item.Around e) items)
    (pos start : Nat) (opened : Bool) {nodes : X → List Node}
    (hnodes : Aligned (Node.Around e) nodes) :
    Aligned (Group.Around e) fun x => groupsFrom pos start opened (nodes x) (items x) := by
  -- The open group stays a family around the chosen node, wherever it begins.
  induction h generalizing pos start opened nodes with
  | nil => exact .singleton (.mk start pos opened false hnodes)
  | cons hitem _ ih =>
    cases hitem with
    | node hf => exact ih (pos + 1) start opened (hnodes.append (.singleton hf))
    | delimiter d =>
      simp only [groupsFrom_delimiter]
      exact .cons (.mk start pos opened (d == .stop) hnodes) (ih _ _ (d == .start) .nil)

/-- Whether a group is a link, and to which place, is the same whatever is chosen. -/
theorem around_reference? (he : ∀ x, (e x).text? = none) {g : X → Group} (h : Group.Around e g) :
    (∀ x, (g x).reference? = none) ∨
      ∃ reference, LinkReference.Around e reference ∧
        ∀ x, (g x).reference? = some (reference x) := by
  obtain ⟨start, stop, opened, closed, hnodes⟩ := h
  unfold Group.reference?
  dsimp only
  cases opened && closed with
  | false => exact .inl fun x => rfl
  | true =>
    cases hnodes with
    | nil => exact .inl fun x => rfl
    | cons hfirst hothers =>
      obtain ⟨t, ht⟩ := hfirst.exists_text? he
      simp only [ht]
      cases t with
      | none => exact .inl fun x => rfl
      | some s =>
        dsimp only
        by_cases hline : s.toList.contains '\n' = true
        · exact .inl fun x => by rw [if_pos hline]
        · simp only [if_neg hline]
          exact LinkReference.around_ofText? s.toList hothers

/-- The nodes of a group with its delimiters put back. -/
theorem around_restore {g : X → Group} (h : Group.Around e g) :
    Aligned (Node.Around e) fun x => (g x).restore := by
  obtain ⟨start, stop, opened, closed, hnodes⟩ := h
  have hmark (b : Bool) (s : String) :
      Aligned (Node.Around e) fun _ => if b then [text s] else [] := by
    cases b with
    | false => exact .nil
    | true => exact .singleton (around_text s)
  exact ((hmark opened _).append hnodes).append (hmark closed _)

/-- The nodes of groups around a node are fit. -/
theorem isFit_of_around {g : X → Group} (h : Group.Around e g) :
    ∀ x, ∀ n ∈ (g x).nodes, n.isFit = true := by
  obtain ⟨start, stop, opened, closed, hnodes⟩ := h
  exact isFit_of_aligned hnodes

end Link

/-! ## Notes and steps -/

namespace Note

/-- A note without its trace. -/
def untraced (note : Note) : Note := { note with trace := .null }

/-- A family of proper notes that differ at most in their traces. -/
structure Steady (note : X → Note) : Prop where
  /-- The notes are the same but for their traces. -/
  untraced : ∃ plain, ∀ x, (note x).untraced = plain
  /-- The notes are proper. -/
  proper : ∀ x, (note x).isProper = true

end Note

namespace Step

/-- A family of steps that keep nodes around the chosen one, with the same note or none, or ask for
the same. -/
inductive Around (e : X → Node) : (X → Step) → Prop where
  /-- Nodes are kept. -/
  | keep {nodes : X → List Node} : Aligned (Node.Around e) nodes → Around e fun x => .keep (nodes x)
  /-- Nodes are kept, and a message about them is made. -/
  | tell {note : X → Note} {nodes : X → List Node} : Note.Steady note →
    Aligned (Node.Around e) nodes → Around e fun x => .tell (note x) (nodes x)
  /-- A resolver is asked. -/
  | ask {call : X → Call} : Call.Around e call → Around e fun x => .ask (call x)

/-- A group that is no link is kept with a note if it is opened, and without one if it is not. -/
theorem around_ofGroup_of_none {g : X → Link.Group} (h : Link.Group.Around e g)
    (hnone : ∀ x, (g x).reference? = none) : Around e fun x => ofGroup (g x) := by
  have hrestore := Link.around_restore h
  have hfit := Link.isFit_of_around h
  obtain ⟨start, stop, opened, closed, hnodes⟩ := h
  dsimp only at hnone hfit
  cases opened with
  | false =>
    simp only [ofGroup_of_not_opened]
    exact .keep hrestore
  | true =>
    have hsound x : (⟨start, stop, true, closed, _⟩ : Link.Group).fault? = none :=
      fault?_of_isSound fun n hn => (isFit_iff.mp (hfit x n hn)).1
    simp only [ofGroup, Link.Group.link, hsound, hnone, Context.groupNote]
    cases closed with
    | false => exact .tell ⟨⟨_, fun x => rfl⟩, fun x => rfl⟩ hrestore
    | true =>
      have hshown x : allDisplayable (_ : List Node) = true :=
        allDisplayable_iff.mpr fun n hn => (isFit_iff.mp (hfit x n hn)).2
      simp only [displayList?, hshown]
      -- The trace shows the nodes, and so depends on the choice.
      refine .tell ⟨⟨{
          level := .debug
          text := .str "invalid link content"
          calledFrom := .str "links/134" }, fun x => rfl⟩, fun x => rfl⟩ hrestore

/-- What becomes of a group is the same whatever is chosen. -/
theorem around_ofGroup (he : ∀ x, (e x).text? = none) {g : X → Link.Group}
    (h : Link.Group.Around e g) : Around e fun x => ofGroup (g x) := by
  rcases Link.around_reference? he h with hnone | ⟨reference, haround, hsome⟩
  · exact around_ofGroup_of_none h hnone
  · have hsound x : (g x).fault? = none :=
      fault?_of_isSound fun n hn => (isFit_iff.mp (Link.isFit_of_around h x n hn)).1
    simp only [ofGroup, Link.Group.link, hsound, hsome]
    exact .ask (.link haround)

end Step

namespace Node

variable {f : X → Node} {fs : X → List Node}

/-- The links among nodes are resolved by the same steps whatever is chosen. -/
theorem around_linkSteps (he : ∀ x, (e x).text? = none) (h : Aligned (Around e) fs) :
    Aligned (Step.Around e) fun x => linkSteps (fs x) := by
  have hitems : Aligned (Link.Item.Around e) fun x => Link.items (mergeText (fs x)) :=
    (around_mergeText he h).flatMap fun _ hf => Link.around_itemsOf he hf
  exact (Link.around_groupsFrom hitems 0 0 false .nil).map fun _ hg => Step.around_ofGroup he hg

/-- A node around another has the same templates whatever is chosen. -/
theorem Around.exists_templates (he : ∀ x, (e x).text? = none) (h : Around e f) :
    ∃ os, ∀ x, (f x).templates = os := by
  obtain ⟨t, ht⟩ := h.exists_text? he
  simp only [templates, ht]
  exact ⟨_, fun x => rfl⟩

/-- The templates of a text are expanded by the same steps whatever is chosen. -/
theorem around_templateSteps (he : ∀ x, (e x).text? = none) (h : Around e f) :
    Aligned (Step.Around e) fun x => (f x).templateSteps := by
  obtain ⟨t, ht⟩ := h.exists_text? he
  simp only [templateSteps, templates, ht]
  refine .const fun step hstep => ?_
  obtain ⟨piece, -, rfl⟩ := List.mem_map.mp hstep
  cases piece with
  | literal s => exact .keep (.singleton (around_text s))
  | call call => exact .ask (.template call)

end Node

end Transclude
