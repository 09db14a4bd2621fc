import Transclude.Proofs.Link.Plain
import Transclude.Proofs.Walk.Script

/-!
# Scripts by what matters for links

Two runs through the same tree may get different answers. If the answers are the same but for what does
not matter for links, both runs make the same messages and the same calls, and give the same trees, but
for what does not matter: `Script.AlikeBy` says so of two scripts, answer by answer, and
`alikeBy_script` of the script of a walk and itself.
-/

namespace Transclude

variable {α α' β β' : Type}

/-! ## Alike scripts -/

/-- Two scripts that tell the same, make calls that are the same by `f`, go on alike with answers that
are the same by `f`, and give related values. -/
inductive Script.AlikeBy (f : Node → Node) (R : α → α' → Prop) : Script α → Script α' → Prop
  /-- Related values are given. -/
  | done {a : α} {a' : α'} : R a a' → AlikeBy f R (.done a) (.done a')
  /-- Nothing more can be done, for the same reason. -/
  | fail (fault : Fault) : AlikeBy f R (.fail fault) (.fail fault)
  /-- The same message is made. -/
  | tell {inner : List Head} {note : Note} {next : Script α} {next' : Script α'} :
      AlikeBy f R next next' → AlikeBy f R (.tell inner note next) (.tell inner note next')
  /-- A resolver is asked the same but for what does not matter. -/
  | ask {inner : List Head} {call call' : Call} {next : List Node → Script α}
      {next' : List Node → Script α'} : call.mapNodes f = call'.mapNodes f →
      (∀ nodes nodes', nodes.map f = nodes'.map f → AlikeBy f R (next nodes) (next' nodes')) →
      AlikeBy f R (.ask inner call next) (.ask inner call' next')

namespace Script

variable {f : Node → Node} {R : α → α' → Prop} {S : β → β' → Prop} {s : Script α} {s' : Script α'}

/-- Scripts stay alike if they go on alike with related values. -/
theorem AlikeBy.bind {k : α → Script β} {k' : α' → Script β'} (h : AlikeBy f R s s')
    (hk : ∀ a a', R a a' → AlikeBy f S (k a) (k' a')) : AlikeBy f S (s.bind k) (s'.bind k') := by
  induction h with
  | done hR => exact hk _ _ hR
  | fail fault => exact .fail fault
  | tell _ ih => exact .tell ih
  | ask hcall _ ih => exact .ask hcall ih

/-- Scripts are alike within a container. -/
theorem AlikeBy.under (head : Head) (h : AlikeBy f R s s') :
    AlikeBy f R (s.under head) (s'.under head) := by
  induction h with
  | done hR => exact .done hR
  | fail fault => exact .fail fault
  | tell _ ih => exact .tell ih
  | ask hcall _ ih => exact .ask hcall ih

/-- Results that are the same by `g` are alike as scripts. -/
theorem alikeBy_ofExcept {g : α → β} {e e' : Except Fault α} (h : e.map g = e'.map g) :
    AlikeBy f (fun a a' => g a = g a') (ofExcept e) (ofExcept e') := by
  cases e with
  | error fault =>
    cases e' with
    | error fault' =>
      obtain rfl : fault = fault' := Except.error.inj h
      exact .fail fault
    | ok a' => cases h
  | ok a =>
    cases e' with
    | error fault' => cases h
    | ok a' => exact .done (Except.ok.inj h)

/-- Steps that are the same by `f` are alike as scripts, and so are the nodes that they give. -/
theorem alikeBy_ofSteps {steps steps' : List Step}
    (h : steps.map (Step.mapNodes f) = steps'.map (Step.mapNodes f)) :
    AlikeBy f (fun ns ms => ns.map f = ms.map f) (ofSteps steps) (ofSteps steps') := by
  induction steps generalizing steps' with
  | nil =>
    obtain rfl : steps' = [] := by simpa using h.symm
    exact .done rfl
  | cons step rest ih =>
    cases steps' with
    | nil => simp at h
    | cons step' rest' =>
      obtain ⟨hstep, hrest⟩ := List.cons_eq_cons.mp h
      -- What the first step gives comes before the nodes of the others.
      have hgoOn {ns ms : List Node} (hnodes : ns.map f = ms.map f) :
          AlikeBy f (fun ns ms => ns.map f = ms.map f)
            ((ofSteps rest).bind fun others => .done (ns ++ others))
            ((ofSteps rest').bind fun others => .done (ms ++ others)) := by
        refine (ih hrest).bind fun others others' hothers => .done ?_
        rw [List.map_append, List.map_append, hnodes, hothers]
      cases step with
      | keep nodes =>
        cases step' with
        | keep nodes' => exact hgoOn (Step.keep.inj hstep)
        | _ => cases hstep
      | tell note nodes =>
        cases step' with
        | tell note' nodes' =>
          obtain ⟨rfl, hnodes⟩ := Step.tell.inj hstep
          exact .tell (hgoOn hnodes)
        | _ => cases hstep
      | ask call =>
        cases step' with
        | ask call' => exact .ask (Step.ask.inj hstep) fun nodes nodes' => hgoOn
        | _ => cases hstep
      | fail fault =>
        cases step' with
        | fail fault' =>
          obtain rfl := Step.fail.inj hstep
          exact .fail fault
        | _ => cases hstep

end Script

/-! ## Walks through the same tree -/

namespace Node

variable {f : Node → Node} {tags : Tags}

/-- Containers whose children have become the same nodes by `f` are ended alike. -/
theorem Immaterial.alikeBy_ending (hf : Immaterial f) {ns ms : List Node} (h : ns.map f = ms.map f) :
    Script.AlikeBy f (fun ns ms => ns.map f = ms.map f) (ending ns) (ending ms) := by
  have hmerge {ns ms : List Node} (h : ns.map f = ms.map f) :
      (Node.merge ns).map (List.map f) = (Node.merge ms).map (List.map f) := by
    rw [← hf.merge, h, hf.merge]
  have htokens {ns ms : List Node} (h : ns.map f = ms.map f) :
      (Link.tokenize ns).map (List.map (Link.Item.mapNodes f)) =
        (Link.tokenize ms).map (List.map (Link.Item.mapNodes f)) := by
    rw [← hf.tokenize, h, hf.tokenize]
  have hsteps {items items' : List Link.Item}
      (h : items.map (Link.Item.mapNodes f) = items'.map (Link.Item.mapNodes f)) :
      ((Link.groups items).map Step.ofGroup).map (Step.mapNodes f) =
        ((Link.groups items').map Step.ofGroup).map (Step.mapNodes f) := by
    have hgroups : (Link.groups items).map (Link.Group.mapNodes f) =
        (Link.groups items').map (Link.Group.mapNodes f) := by
      rw [← Link.groups_map_mapNodes, h, Link.groups_map_mapNodes]
    have hofGroup (gs : List Link.Group) : (gs.map Step.ofGroup).map (Step.mapNodes f) =
        (gs.map (Link.Group.mapNodes f)).map Step.ofGroup := by
      rw [List.map_map, List.map_map]
      exact List.map_congr_left fun g _ => (hf.ofGroup g).symm
    rw [hofGroup, hgroups, hofGroup]
  -- The nodes are merged, cut, grouped and merged again, each time alike.
  unfold ending
  refine (Script.alikeBy_ofExcept (hmerge h)).bind fun merged merged' hmerged => ?_
  refine (Script.alikeBy_ofExcept (htokens hmerged)).bind fun items items' hitems => ?_
  refine (Script.alikeBy_ofSteps (hsteps hitems)).bind fun output output' houtput => ?_
  exact Script.alikeBy_ofExcept (hmerge houtput)

mutual

/-- The script of a walk through a well-formed tree is alike to itself. -/
theorem Immaterial.alikeBy_script (hf : Immaterial f) : ∀ {n : Node}, n.wellFormed = true →
    Script.AlikeBy f (fun n m => f n = f m) (n.script tags) (n.script tags)
  | .stray value, hn => by simp [wellFormed] at hn
  | .node head info children, hn => by
    cases hadmits : tags.admits (.node head info children) with
    | false =>
      rw [script_of_not_admits hn hadmits]
      exact .done rfl
    | true =>
      obtain ⟨-, -, hchildren⟩ := wellFormed_node.mp hn
      have hinside : Script.AlikeBy f (fun ns ms => ns.map f = ms.map f)
          ((scripts tags children).bind ending) ((scripts tags children).bind ending) :=
        (hf.alikeBy_scripts hchildren).bind fun ns ms => hf.alikeBy_ending
      rw [script_of_admits hadmits]
      refine Script.AlikeBy.under head (hinside.bind fun given given' hgiven => .done ?_)
      exact hf.node (text?_eq_none_of_admits hadmits given) hgiven

/-- The script of a walk through well-formed children is alike to itself. -/
theorem Immaterial.alikeBy_scripts (hf : Immaterial f) : ∀ {ns : List Node},
    allWellFormed ns = true →
    Script.AlikeBy f (fun ns ms => ns.map f = ms.map f) (scripts tags ns) (scripts tags ns)
  | [], _ => by
    rw [scripts]
    exact .done rfl
  | child :: rest, hns => by
    rw [allWellFormed, Bool.and_eq_true] at hns
    have hrest {ns ms : List Node} (h : ns.map f = ms.map f) :
        Script.AlikeBy f (fun ns ms => ns.map f = ms.map f)
          ((scripts tags rest).bind fun others => .done (ns ++ others))
          ((scripts tags rest).bind fun others => .done (ms ++ others)) := by
      refine (hf.alikeBy_scripts hns.2).bind fun others others' hothers => .done ?_
      rw [List.map_append, List.map_append, h, hothers]
    by_cases ht : child.templates = []
    · rw [scripts_of_no_templates ht]
      refine (hf.alikeBy_script hns.1).bind fun n m h => ?_
      have hfirst : [n].map f = [m].map f := congrArg (fun k => [k]) h
      exact hrest hfirst
    · rw [scripts_of_templates ht]
      exact (Script.alikeBy_ofSteps rfl).bind fun ns ms => hrest

end

end Node

/-! ## Events -/

namespace Event

/-- An event with another node in the place of each that is handed over or answered. -/
def mapNodes (f : Node → Node) : Event → Event
  | .told inner note => .told inner note
  | .asked inner call asides answer => .asked inner (call.mapNodes f) asides (answer.map f)

section MapNodes

variable {f : Node → Node} {es fs : List Event}

/-- The entries of an event do not depend on its nodes. -/
theorem entries_mapNodes (outer : List Head) (e : Event) :
    (e.mapNodes f).entries outer = e.entries outer := by
  cases e <;> rfl

/-- Whether an event is proper does not depend on its nodes. -/
theorem isProper_mapNodes (e : Event) : (e.mapNodes f).isProper = e.isProper := by
  cases e <;> rfl

/-- Events that are the same by `f` have the same entries. -/
theorem entries_eq_of_map_mapNodes (h : es.map (mapNodes f) = fs.map (mapNodes f))
    (outer : List Head) : es.flatMap (entries outer) = fs.flatMap (entries outer) := by
  have hentries (events : List Event) :
      (events.map (mapNodes f)).flatMap (entries outer) = events.flatMap (entries outer) := by
    rw [List.flatMap_map]
    exact congrArg (events.flatMap ·) (funext (entries_mapNodes outer))
  calc es.flatMap (entries outer) = (es.map (mapNodes f)).flatMap (entries outer) :=
        (hentries es).symm
    _ = (fs.map (mapNodes f)).flatMap (entries outer) := by rw [h]
    _ = fs.flatMap (entries outer) := hentries fs

/-- Events that are the same by `f` are proper together. -/
theorem isProper_of_map_mapNodes (h : es.map (mapNodes f) = fs.map (mapNodes f))
    (hproper : ∀ e ∈ fs, e.isProper = true) : ∀ e ∈ es, e.isProper = true := by
  intro e he
  have hmem : e.mapNodes f ∈ fs.map (mapNodes f) := h ▸ List.mem_map_of_mem he
  obtain ⟨e', he', heq⟩ := List.mem_map.mp hmem
  rw [← isProper_mapNodes (f := f) e, ← heq, isProper_mapNodes]
  exact hproper e' he'

/-- Events that are the same by `f` have calls that are. -/
theorem map_fst_talk_of_map_mapNodes (h : es.map (mapNodes f) = fs.map (mapNodes f)) :
    ((talk es).map Prod.fst).map (Call.mapNodes f) =
      ((talk fs).map Prod.fst).map (Call.mapNodes f) := by
  have hcalls (events : List Event) : ((talk events).map Prod.fst).map (Call.mapNodes f) =
      (talk (events.map (mapNodes f))).map Prod.fst := by
    induction events with
    | nil => rfl
    | cons e rest ih =>
      cases e with
      | told inner note => exact ih
      | asked inner call asides answer => exact congrArg (call.mapNodes f :: ·) ih
  calc ((talk es).map Prod.fst).map (Call.mapNodes f)
      = (talk (es.map (mapNodes f))).map Prod.fst := hcalls es
    _ = (talk (fs.map (mapNodes f))).map Prod.fst := by rw [h]
    _ = ((talk fs).map Prod.fst).map (Call.mapNodes f) := (hcalls fs).symm

end MapNodes

end Event

end Transclude
