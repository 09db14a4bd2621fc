import Transclude.Proofs.Walk.Need
import Transclude.Proofs.Walk.Uniform

/-!
# Where sealed nodes end up

A node that a walk does not go into, such as an excluded element, is not changed by it. It is kept
(`Node.Kept`): afterwards it lies in the tree as it was before, unless a link takes it with it, and
then it is among the nodes that the link resolver is given. `kept_of_path_script` says so of every
path through the script of a walk.
-/

namespace Transclude

namespace Node

/-- A node lies in one of some nodes, which is no text. -/
def LiesIn (e : Node) (ns : List Node) : Prop :=
  ∃ n ∈ ns, n.text? = none ∧ ∃ q, at? q n = some e

/-- A node lies in one of the nodes that a walk gives, or in one of those that a link resolver is
given on the way. -/
def Kept (e : Node) (ns : List Node) (events : List Event) : Prop :=
  e.LiesIn ns ∨ ∃ call ∈ (Event.talk events).map Prod.fst, e.LiesIn call.nodes

variable {e n : Node} {ns ms : List Node} {es fs : List Event}

/-- A node that lies in some nodes lies in more. -/
theorem LiesIn.mono (h : e.LiesIn ns) (hsub : ∀ n ∈ ns, n ∈ ms) : e.LiesIn ms := by
  obtain ⟨n, hn, htext, hat⟩ := h
  exact ⟨n, hsub n hn, htext, hat⟩

/-- What is kept is kept among more nodes, and when more happens. -/
theorem Kept.mono (h : Kept e ns es) (hnodes : ∀ n ∈ ns, n ∈ ms)
    (hevents : ∀ event ∈ es, event ∈ fs) : Kept e ms fs := by
  rcases h with h | ⟨call, hcall, h⟩
  · exact .inl (h.mono hnodes)
  · obtain ⟨x, hx, rfl⟩ := List.mem_map.mp hcall
    obtain ⟨event, hevent, hsome⟩ := List.mem_filterMap.mp hx
    exact .inr ⟨x.1, List.mem_map.mpr
      ⟨x, List.mem_filterMap.mpr ⟨event, hevents event hevent, hsome⟩, rfl⟩, h⟩

/-- No step fails for the links of a container that comes to its end. -/
theorem not_fail_of_path_ending {given : List Node} (h : (ending ns).Path es given) :
    ∀ fault, .fail fault ∉ linkSteps ns := by
  obtain ⟨output, hsteps, -⟩ := exists_path_of_path_ending h
  exact (Script.path_ofSteps hsteps).2.2.2

/-- A node that lies among the children of a container is kept when the container is ended. -/
theorem kept_of_path_ending {given : List Node} (h : (ending ns).Path es given)
    (he : e.LiesIn ns) : Kept e given es := by
  obtain ⟨hcalls, -, -, rfl⟩ := path_ending h
  obtain ⟨n, hn, htext, hat⟩ := he
  -- The node lies in one of the groups, which is a link or is put back.
  have hitem : .node n ∈ Link.items (mergeText ns) := by
    refine List.mem_flatMap.mpr ⟨n, mem_mergeText_of_text? htext hn, ?_⟩
    simp [Link.itemsOf, htext]
  obtain ⟨g, hg, hmem⟩ := Link.exists_mem_groups.mpr hitem
  have hstep : Step.ofGroup g ∈ linkSteps ns := List.mem_map.mpr ⟨g, hg, rfl⟩
  have hfail : ∀ fault, Step.ofGroup g ≠ .fail fault :=
    fun fault heq => not_fail_of_path_ending h fault (heq ▸ hstep)
  cases hreference : g.reference? with
  | some reference =>
    have hcall : Call.link reference ∈ (Event.talk es).map Prod.fst := by
      rw [hcalls]
      refine List.mem_filterMap.mpr ⟨_, hstep, ?_⟩
      rw [Step.call?_ofGroup hfail, hreference]
      rfl
    exact .inr ⟨_, hcall, n, Link.Group.mem_reference_nodes hreference hmem htext, htext, hat⟩
  | none =>
    have hkept : n ∈ (Step.ofGroup g).kept := by
      rw [Step.kept_ofGroup hfail hreference]
      simp [Link.Group.restore, hmem]
    have houtput := Step.mem_outputs_of_kept hstep hkept ((Event.talk es).map Prod.snd)
    exact .inl ⟨n, mem_mergeText_of_text? htext houtput, htext, hat⟩

/-- A node that may have children is no text. -/
theorem text?_of_listed {head : Head} (hr : head.isRegular = true) (h : head.listed = true)
    (info : Info) (children : List Node) : (Node.node head info children).text? = none := by
  rw [text?_of_isRegular hr]
  cases head with
  | text s =>
    have hcontainer : (Head.text s).listed = false := by
      change (Kinds.single .text).within .containers = false
      decide
    simp [hcontainer] at h
  | _ => rfl

/-- A node that has children in a well-formed tree is no text, and none with other children. -/
theorem text?_eq_none_of_children {head : Head} {info : Info} {children : List Node}
    (h : (Node.node head info children).wellFormed = true) (hne : children ≠ [])
    (given : List Node) : (Node.node head info given).text? = none := by
  obtain ⟨hr, hlisted, -⟩ := wellFormed_node.mp h
  exact text?_of_listed hr (hlisted.resolve_right hne) info given

variable {tags : Tags}

/-- A well-formed tree in which a node lies that is no text is no text. -/
theorem text?_of_at? {p : Place} (hn : n.wellFormed = true) (hat : at? p n = some e)
    (he : e.text? = none) : n.text? = none := by
  cases p with
  | nil => exact (Option.some.inj hat : n = e) ▸ he
  | cons i p =>
    obtain ⟨child, hchild, -⟩ := at?_cons.mp hat
    obtain ⟨head, info, children, rfl, -⟩ := exists_of_wellFormed hn
    exact text?_eq_none_of_children hn (List.ne_nil_of_mem (List.mem_of_getElem? hchild)) children

/-- A node that the walk through a child keeps is kept by the walk through all children. -/
theorem kept_of_path_scripts {child : Node} (htext : child.text? = none)
    (hchild : ∀ {es : List Event} {m : Node}, (child.script tags).Path es m → Kept e [m] es)
    (hmem : child ∈ ns) (h : (scripts tags ns).Path es ms) : Kept e ms es := by
  induction ns generalizing es ms with
  | nil => simp at hmem
  | cons first rest ih =>
    by_cases ht : first.templates = []
    · obtain ⟨front, back, m, others, rfl, hfirst, hothers, rfl⟩ :=
        path_scripts_of_no_templates ht h
      rcases List.mem_cons.mp hmem with rfl | hmem
      · exact (hchild hfirst).mono (by simp) (by simp +contextual)
      · exact (ih hmem hothers).mono (by simp +contextual) (by simp +contextual)
    · obtain ⟨front, back, nodes, others, rfl, -, hothers, rfl⟩ := path_scripts_of_templates ht h
      -- The child is no text, so it is a later one.
      have hlater : child ∈ rest := by
        refine (List.mem_cons.mp hmem).resolve_left fun heq => ht ?_
        rw [← heq, templates, htext]
      exact (ih hlater hothers).mono (by simp +contextual) (by simp +contextual)

/-- A node in a tree that a walk does not go into is kept by the walk through the tree. -/
theorem kept_of_path_script {p : Place} {m : Node} (hn : n.wellFormed = true)
    (hat : at? p n = some e) (he : e.text? = none) (hsealed : tags.admits e = false)
    (h : (n.script tags).Path es m) : Kept e [m] es := by
  induction p generalizing n es m with
  | nil =>
    obtain rfl : n = e := Option.some.inj hat
    rw [script_of_not_admits hn hsealed] at h
    obtain ⟨rfl, rfl⟩ := Script.path_done h
    exact .inl ⟨m, by simp, he, [], rfl⟩
  | cons i p ih =>
    obtain ⟨child, hchild, hbelow⟩ := at?_cons.mp hat
    obtain ⟨head, info, children, rfl, -⟩ := exists_of_wellFormed hn
    have hmem : child ∈ children := List.mem_of_getElem? hchild
    have htext := text?_eq_none_of_children hn (List.ne_nil_of_mem hmem)
    cases hadmits : tags.admits (.node head info children) with
    | false =>
      rw [script_of_not_admits hn hadmits] at h
      obtain ⟨rfl, rfl⟩ := Script.path_done h
      exact .inl ⟨_, by simp, htext children, _, hat⟩
    | true =>
      obtain ⟨front, back, spliced, given, rfl, hfront, hback, rfl⟩ :=
        path_script_of_admits hadmits h
      have hwell := wellFormed_of_getElem? hn hchild
      have hkept := kept_of_path_scripts (text?_of_at? hwell hbelow he)
        (fun hpath => ih hwell hbelow hpath) hmem hfront
      unfold Kept
      rw [Event.talk_map_under, Event.talk_append, List.map_append]
      rcases hkept with hspliced | ⟨call, hcall, hlies⟩
      · rcases kept_of_path_ending hback hspliced with ⟨k, hk, -, q, hq⟩ | ⟨call, hcall, hlies⟩
        · obtain ⟨j, hj⟩ := List.mem_iff_getElem?.mp hk
          exact .inl ⟨_, by simp, htext given, j :: q, at?_cons.mpr ⟨k, hj, hq⟩⟩
        · exact .inr ⟨call, List.mem_append_right _ hcall, hlies⟩
      · exact .inr ⟨call, List.mem_append_left _ hcall, hlies⟩

end Node

end Transclude
