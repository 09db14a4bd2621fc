import Transclude.Proofs.Walk.Script

/-!
# What a walk asks for

A link resolver is given nodes: those that the link displays. In a walk through a well-formed tree
with fit answers these are fit as well, whichever call is made (`asksOnly_script`). So it is enough
that the resolvers answer such calls for the walk to come to its end: `exists_follows_of_responsive`.
-/

namespace Transclude

variable {σ : Type}

/-! ## Fit calls -/

/-- Whether the nodes that a call hands over are fit. -/
def Call.IsFit : Call → Prop
  | .link reference => ∀ n ∈ reference.nodes, n.isFit = true
  | .template _ => True

/-- What the link of a group displays is a new text, or among the nodes of the group. -/
theorem Link.Group.mem_nodes_of_reference? {g : Group} {reference : LinkReference}
    (h : g.reference? = some reference) :
    ∀ n ∈ reference.nodes, (∃ s, n = Node.text s) ∨ n ∈ g.nodes := by
  obtain ⟨-, first, others, s, hnodes, -, -, href⟩ := reference?_eq_some.mp h
  intro n hn
  rw [hnodes]
  rcases nodes_of_ofText?_eq_some href with hdisplayed | ⟨t, hdisplayed⟩
  · exact .inr (List.mem_cons_of_mem first (hdisplayed ▸ hn))
  · rw [hdisplayed] at hn
    exact (List.mem_cons.mp hn).imp (fun heq => ⟨t, heq⟩) (List.mem_cons_of_mem first)

/-- The link of a group displays all nodes of the group that are no texts. -/
theorem Link.Group.mem_reference_nodes {g : Group} {reference : LinkReference} {n : Node}
    (h : g.reference? = some reference) (hn : n ∈ g.nodes) (htext : n.text? = none) :
    n ∈ reference.nodes := by
  obtain ⟨-, first, others, s, hnodes, hs, -, href⟩ := reference?_eq_some.mp h
  -- The node is not the first of the group, which is a text.
  have hothers : n ∈ others := by
    rw [hnodes] at hn
    exact (List.mem_cons.mp hn).resolve_left fun heq => by simp [← heq, htext] at hs
  rcases nodes_of_ofText?_eq_some href with hdisplayed | ⟨t, hdisplayed⟩
  · rwa [hdisplayed]
  · rw [hdisplayed]
    exact List.mem_cons_of_mem _ hothers

namespace Node

variable {Good : Call → List Node → Prop} {tags : Tags}

/-- The calls for the links of fit nodes are fit. -/
theorem isFit_of_mem_calls_linkSteps {ns : List Node} (h : ∀ n ∈ ns, n.isFit = true) :
    ∀ call ∈ Step.calls (linkSteps ns), call.IsFit := by
  have hsure : ∀ fault, .fail fault ∉ linkSteps ns := by
    intro fault hmem
    simpa [Step.isSure] using (resolvedBy_linkSteps h).sure _ hmem
  intro call hcall
  unfold linkSteps at hcall hsure
  rw [Step.calls_ofGroup hsure] at hcall
  obtain ⟨reference, hreference, rfl⟩ := List.mem_map.mp hcall
  obtain ⟨g, hg, hsome⟩ := List.mem_filterMap.mp hreference
  intro n hn
  rcases Link.Group.mem_nodes_of_reference? hsome n hn with ⟨s, rfl⟩ | hmem
  · exact isFit_text s
  · have hitem := Link.mem_of_mem_groups hg hmem
    exact isFit_items (isFit_mergeText h) n hitem

/-- The end of a container whose children have become fit nodes asks for fit calls. -/
theorem asksOnly_ending {ns : List Node} (h : ∀ n ∈ ns, n.isFit = true) :
    (ending ns).AsksOnly Good Call.IsFit := by
  have hsteps : (Script.ofSteps (linkSteps ns)).AsksOnly Good Call.IsFit :=
    Script.asksOnly_ofSteps (isFit_of_mem_calls_linkSteps h)
  rw [ending_of_isFit h]
  exact hsteps.bind_of_forall fun output => Script.asksOnly_ofExcept _

mutual

/-- A walk through a well-formed tree asks for fit calls if all answers are fit. -/
theorem asksOnly_script (hgood : ∀ call nodes, Good call nodes → Fit call nodes) : ∀ {n : Node},
    n.wellFormed = true → (n.script tags).AsksOnly Good Call.IsFit
  | .stray value, hn => by simp [wellFormed] at hn
  | .node head info children, hn => by
    cases hadmits : tags.admits (.node head info children) with
    | false =>
      rw [script_of_not_admits hn hadmits]
      trivial
    | true =>
      obtain ⟨-, -, hchildren⟩ := wellFormed_node.mp hn
      have hinside : ((scripts tags children).bind ending).AsksOnly Good Call.IsFit :=
        (asksOnly_scripts hgood hchildren).bind (always_scripts hgood hchildren)
          fun spliced h => asksOnly_ending h
      rw [script_of_admits hadmits]
      refine Script.AsksOnly.under (hinside.bind_of_forall fun given => ?_)
      trivial

/-- A walk through well-formed children asks for fit calls if all answers are fit. -/
theorem asksOnly_scripts (hgood : ∀ call nodes, Good call nodes → Fit call nodes) :
    ∀ {ns : List Node}, allWellFormed ns = true → (scripts tags ns).AsksOnly Good Call.IsFit
  | [], _ => by
    rw [scripts]
    trivial
  | child :: rest, hns => by
    rw [allWellFormed, Bool.and_eq_true] at hns
    have hrest {f : List Node → List Node} :
        ((scripts tags rest).bind fun others => .done (f others)).AsksOnly Good Call.IsFit :=
      (asksOnly_scripts hgood hns.2).bind_of_forall fun others => trivial
    by_cases ht : child.templates = []
    · rw [scripts_of_no_templates ht]
      exact (asksOnly_script hgood hns.1).bind_of_forall fun m => hrest
    · rw [scripts_of_templates ht]
      exact (asksOnly_templateSteps (fun _ => trivial) child).bind_of_forall fun nodes => hrest

end

end Node

open Node

/-! ## Resolvers that answer fit calls -/

namespace Context

variable {ctx : Context σ} {n : Node} {st : State σ}

/-- The resolvers answer every fit call, in any state, with fit nodes. -/
def Responsive (ctx : Context σ) : Prop := ∀ call, call.IsFit → ∀ world, ∃ nodes next,
  ctx.answer? call world = some (nodes, next) ∧ Fit call nodes

/-- Resolvers that answer every call answer the fit ones. -/
theorem Answering.responsive (h : ctx.Answering) : ctx.Responsive := fun call _ => h call

/-- A walk through a well-formed tree comes to its end if all fit calls are answered, and makes fit
calls only. -/
theorem exists_follows_of_responsive (hctx : ctx.Responsive) (hn : n.wellFormed = true)
    (hst : ∀ head ∈ st.stack, head.isRegular = true) :
    ∃ events m world, ctx.Follows n st events m world ∧
      ∀ x ∈ Event.talk events, x.1.IsFit ∧ Fit x.1 x.2 := by
  have halways : (n.script ctx.excluded).Always Fit fun m => m.isFit = true :=
    always_script (fun _ _ h => h) hn
  have hasks : (n.script ctx.excluded).AsksOnly Fit Call.IsFit :=
    asksOnly_script (fun _ _ h => h) hn
  obtain ⟨events, m, world, hpath, hplays, hfit, hproper, htalk⟩ :=
    Script.exists_path_of_asksOnly hctx halways hasks st.world
  have hvisit := visit_of_path hn hpath hproper hst hplays
  exact ⟨events, m, world, ⟨hpath, hplays, hproper, hfit, hvisit⟩, htalk⟩

/-- A walk through a well-formed tree comes to its end if all calls are answered. -/
theorem exists_follows (hctx : ctx.Answering) (hn : n.wellFormed = true)
    (hst : ∀ head ∈ st.stack, head.isRegular = true) :
    ∃ events m world, ctx.Follows n st events m world := by
  obtain ⟨events, m, world, hfollows, -⟩ := exists_follows_of_responsive hctx.responsive hn hst
  exact ⟨events, m, world, hfollows⟩

end Context

end Transclude
