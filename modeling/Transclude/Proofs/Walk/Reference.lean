import Transclude.Proofs.Link.Reference
import Transclude.Proofs.Walk.Journal

/-!
# The references that a walk hands out

Whatever the template resolver answers, the nodes that the children of a container become are merged
before links are recognised among them. So every reference that a walk asks the link resolver for is
well formed: `asksOnly_script_isWellFormed` says so of the script of a walk, and
`isWellFormed_of_mem_calls` of every run.
-/

namespace Transclude

variable {σ : Type}

/-- Whether the reference of a call for a link is well formed. -/
def Call.IsWellFormed : Call → Prop
  | .link reference => reference.IsWellFormed
  | .template _ => True

/-- A step for a group calls for nothing but the reference of the group. -/
theorem Step.reference?_of_call?_ofGroup {g : Link.Group} {call : Call}
    (h : (Step.ofGroup g).call? = some call) :
    ∃ reference, g.reference? = some reference ∧ call = .link reference := by
  have hfail : ∀ fault, Step.ofGroup g ≠ .fail fault := by
    intro fault heq
    simp [heq, Step.call?] at h
  rw [Step.call?_ofGroup hfail] at h
  obtain ⟨reference, hreference, rfl⟩ := Option.map_eq_some_iff.mp h
  exact ⟨reference, hreference, rfl⟩

namespace Node

variable {tags : Tags} {Good : Call → List Node → Prop}

/-- The references for the links of nodes that can be merged and cut are well formed. -/
theorem isWellFormed_of_mem_calls_ofGroup {ns ms : List Node} (hmerge : merge ns = .ok ms)
    (hcut : Link.cutFault? ms = none) :
    ∀ call ∈ Step.calls ((Link.groups (Link.items ms)).map Step.ofGroup), call.IsWellFormed := by
  intro call hcall
  obtain ⟨step, hstep, hsome⟩ := List.mem_filterMap.mp hcall
  obtain ⟨g, hg, rfl⟩ := List.mem_map.mp hstep
  obtain ⟨reference, hreference, rfl⟩ := Step.reference?_of_call?_ofGroup hsome
  have hseparate : Separate g.nodes :=
    Link.separate_of_mem_groups hg (Link.separateItems_items (separate_of_merge hmerge))
  exact LinkReference.isWellFormed_of_reference? hreference hseparate
    (Link.isCutText_of_mem_groups hcut hg)

/-- The end of a container asks for links with well-formed references, whatever its children have
become. -/
theorem asksOnly_ending_isWellFormed (ns : List Node) :
    (ending ns).AsksOnly Good Call.IsWellFormed := by
  unfold ending
  cases hmerge : merge ns with
  | error fault => trivial
  | ok merged =>
    change ((Script.ofExcept (Link.tokenize merged)).bind _).AsksOnly Good Call.IsWellFormed
    unfold Link.tokenize
    cases hcut : Link.cutFault? merged with
    | some fault => trivial
    | none =>
      have hsteps : (Script.ofSteps ((Link.groups (Link.items merged)).map Step.ofGroup)).AsksOnly
          Good Call.IsWellFormed :=
        Script.asksOnly_ofSteps (isWellFormed_of_mem_calls_ofGroup hmerge hcut)
      exact hsteps.bind_of_forall fun output => Script.asksOnly_ofExcept _

/-- A walk through a well-formed tree asks for links with well-formed references, whatever is
answered. -/
theorem asksOnly_script_isWellFormed {n : Node} (hn : n.wellFormed = true) :
    (n.script tags).AsksOnly Good Call.IsWellFormed := by
  have hasks : Composes fun _ s => s.AsksOnly Good Call.IsWellFormed :=
    { done := fun _ => trivial
      bind := Script.AsksOnly.bind_of_forall
      under := fun _ => Script.AsksOnly.under
      ending := asksOnly_ending_isWellFormed
      expansion := asksOnly_templateSteps fun _ => trivial }
  exact hasks.of_script hn

end Node

open Node

namespace Context

/-- Every reference that a link resolver is called with is well formed. The calls of a run for a
well-formed document come after those that were made before. Whatever the resolvers are and answer, and
whether the run fails or not, each of the links among them has the name of a file, not empty and without
number sign, bar, line break or delimiter; its id, if there is one, is not empty and has no bar, line
break or delimiter; no two of its nodes are text nodes side by side, and no text node among them has a
delimiter; and if the first of them is a text node, its text is not empty and has no line break. -/
theorem isWellFormed_of_mem_calls (ctx : Context σ) {t : Node} (ht : t.wellFormed = true) (st : State σ) :
    ∃ calls, (ctx.process t st).state.calls = st.calls ++ calls ∧
      ∀ reference, .link reference ∈ calls → reference.IsWellFormed := by
  obtain ⟨events, left, world, hleads, -, hstate, -⟩ := ctx.exists_events_of_process ht st
  refine ⟨(Event.talk events).map Prod.fst, ?_, fun reference hmem => ?_⟩
  · rw [hstate]
    rfl
  · obtain ⟨x, hx, hcall⟩ := List.mem_map.mp hmem
    have hable := Script.able_of_leads (asksOnly_script_isWellFormed ht) hleads x hx
    rw [hcall] at hable
    exact hable

/-- A document with a template whose name begins a link, which is closed in another text. -/
def linkFromTemplate : Node :=
  .root [.text "::[[a#b::|c", .element "i" [] [], .text "d]]"]

/-- What the template becomes is a part of the reference. -/
theorem isWellFormed_of_mem_calls_linkFromTemplate :
    linkFromTemplate.wellFormed = true ∧
      (∃ calls, (echo.process linkFromTemplate { world := () }).state.calls = [] ++ calls ∧
        ∀ reference, .link reference ∈ calls → reference.IsWellFormed) ∧
      ((echo.process linkFromTemplate { world := () }).state.calls.filterMap fun call =>
          match call with
          | .link reference => some (reference.file, reference.id, reference.nodes.length)
          | .template _ => none) = [("a", some "b", 3)] := by
  have hwell : linkFromTemplate.wellFormed = true := by decide
  exact ⟨hwell, echo.isWellFormed_of_mem_calls hwell { world := () }, by decide +kernel⟩

end Context

end Transclude
