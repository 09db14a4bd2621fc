import Transclude.Proofs.Link.Pattern
import Transclude.Proofs.Run.Path
import Transclude.Proofs.Walk.Visit

/-!
# The script of a walk

What a walk through a well-formed tree tells and asks is laid down by the tree and the excluded tags.
`Node.script` is this script, and `visit_eq_run` says that the walk carries it out. `always_script`
says that it comes to its end whenever all answers are fit, that is, have sound nodes that can be
displayed.
-/

namespace Transclude

variable {σ : Type}

namespace Node

/-- The script of the end of a container whose children have become some nodes: their texts are
merged and their links resolved. -/
def ending (ns : List Node) : Script (List Node) :=
  (Script.ofExcept (merge ns)).bind fun merged =>
    (Script.ofExcept (Link.tokenize merged)).bind fun items =>
      (Script.ofSteps ((Link.groups items).map Step.ofGroup)).bind fun output =>
        Script.ofExcept (merge output)

mutual

/-- The script of a walk through a tree. -/
def script (tags : Tags) : Node → Script Node
  | .stray _ => .fail .plainValue
  | .node head info children =>
    if tags.admits (.node head info children) then
      (((scripts tags children).bind ending).bind fun given =>
        .done (.node head info given)).under head
    else .done (.node head info children)

/-- The script of a walk through children. It gives what they become before links are resolved. -/
def scripts (tags : Tags) : List Node → Script (List Node)
  | [] => .done []
  | child :: rest =>
    if child.templates.isEmpty then
      (script tags child).bind fun n => (scripts tags rest).bind fun others => .done (n :: others)
    else
      (Script.ofSteps child.templateSteps).bind fun nodes =>
        (scripts tags rest).bind fun others => .done (nodes ++ others)

end

section Equations

variable {tags : Tags} {n child : Node} {head : Head} {info : Info} {children rest : List Node}

/-- There is nothing to do for a well-formed node that a walk does not go into. -/
theorem script_of_not_admits (hn : n.wellFormed = true) (h : tags.admits n = false) :
    n.script tags = .done n := by
  obtain ⟨head, info, children, rfl, -⟩ := exists_of_wellFormed hn
  rw [script, h]
  rfl

/-- A container is ended after its children are walked through. -/
theorem script_of_admits (h : tags.admits (.node head info children) = true) :
    (Node.node head info children).script tags =
      (((scripts tags children).bind ending).bind fun given =>
        .done (.node head info given)).under head := by
  rw [script, if_pos h]

/-- A child without templates is walked through. -/
theorem scripts_of_no_templates (h : child.templates = []) :
    scripts tags (child :: rest) = (child.script tags).bind fun n =>
      (scripts tags rest).bind fun others => .done (n :: others) := by
  rw [scripts, h]
  rfl

/-- A child with templates is expanded. -/
theorem scripts_of_templates (h : child.templates ≠ []) :
    scripts tags (child :: rest) = (Script.ofSteps child.templateSteps).bind fun nodes =>
      (scripts tags rest).bind fun others => .done (nodes ++ others) := by
  rw [scripts, if_neg (by simpa using h)]

end Equations

/-- A property that the scripts of walks are put together with: the ends of containers and the expansions
of texts have it, and what is made of scripts that have it. -/
structure Composes (P : (α : Type) → Script α → Prop) : Prop where
  /-- A value has it. -/
  done : ∀ {α : Type} (a : α), P α (.done a)
  /-- A script that goes on has it if it goes on with such scripts only. -/
  bind : ∀ {α β : Type} {s : Script α} {f : α → Script β}, P α s → (∀ a, P β (f a)) → P β (s.bind f)
  /-- A script in a container has it. -/
  under : ∀ {α : Type} {head : Head} {s : Script α}, head.isRegular = true → P α s →
    P α (s.under head)
  /-- The end of a container has it. -/
  ending : ∀ ns : List Node, P _ (ending ns)
  /-- The expansion of a text has it. -/
  expansion : ∀ n : Node, P _ (Script.ofSteps n.templateSteps)

mutual

/-- The script of a walk through a well-formed tree has such a property. -/
theorem Composes.of_script {P : (α : Type) → Script α → Prop} {tags : Tags} (h : Composes P) :
    ∀ {n : Node}, n.wellFormed = true → P _ (n.script tags)
  | .stray value, hn => by simp [wellFormed] at hn
  | .node head info children, hn => by
    cases hadmits : tags.admits (.node head info children) with
    | false =>
      rw [script_of_not_admits hn hadmits]
      exact h.done _
    | true =>
      obtain ⟨hr, -, hchildren⟩ := wellFormed_node.mp hn
      rw [script_of_admits hadmits]
      refine h.under hr ?_
      exact h.bind (h.bind (h.of_scripts hchildren) h.ending) fun given => h.done _

/-- The script of a walk through well-formed children has such a property. -/
theorem Composes.of_scripts {P : (α : Type) → Script α → Prop} {tags : Tags} (h : Composes P) :
    ∀ {ns : List Node}, allWellFormed ns = true → P _ (scripts tags ns)
  | [], _ => by
    rw [scripts]
    exact h.done _
  | child :: rest, hns => by
    rw [allWellFormed, Bool.and_eq_true] at hns
    have hrest (f : List Node → List Node) :
        P _ ((scripts tags rest).bind fun others => .done (f others)) :=
      h.bind (h.of_scripts hns.2) fun others => h.done _
    by_cases ht : child.templates = []
    · rw [scripts_of_no_templates ht]
      exact h.bind (h.of_script hns.1) fun m => hrest _
    · rw [scripts_of_templates ht]
      exact h.bind (h.expansion child) fun nodes => hrest _

end

/-- A path through the end of a container is one through the steps for the links among its children,
and what these give can be merged. -/
theorem exists_path_of_path_ending {ns given : List Node} {events : List Event}
    (h : (ending ns).Path events given) :
    ∃ output, (Script.ofSteps (linkSteps ns)).Path events output ∧ merge output = .ok given := by
  obtain ⟨es, fs, merged, rfl, hmerge, h⟩ := Script.path_bind.mp h
  obtain ⟨gs, hs, items, rfl, htokens, h⟩ := Script.path_bind.mp h
  obtain ⟨ks, ls, output, rfl, hsteps, hlast⟩ := Script.path_bind.mp h
  obtain ⟨rfl, hmerged⟩ := Script.path_ofExcept hmerge
  obtain ⟨rfl, hitems⟩ := Script.path_ofExcept htokens
  obtain ⟨rfl, hgiven⟩ := Script.path_ofExcept hlast
  obtain rfl := Context.eq_of_merge_ok hmerged
  obtain rfl := Context.eq_of_tokenize_ok hitems
  rw [List.nil_append, List.nil_append, List.append_nil]
  exact ⟨output, hsteps, hgiven⟩

/-- On a path through the end of a container, the links among its children are asked for, and the
messages of their steps are made. The container is given the nodes of these steps, merged. -/
theorem path_ending {ns given : List Node} {events : List Event}
    (h : (ending ns).Path events given) :
    (Event.talk events).map Prod.fst = Step.calls (linkSteps ns) ∧
      Step.calls (linkSteps ns) = (Link.references ns).map .link ∧
      events.filterMap Event.note? = Step.notes (linkSteps ns) ∧
      given = mergeText (Step.outputs (linkSteps ns) ((Event.talk events).map Prod.snd)) := by
  obtain ⟨output, hsteps, hmerge⟩ := exists_path_of_path_ending h
  obtain ⟨hcalls, hnotes, rfl, hsure⟩ := Script.path_ofSteps hsteps
  exact ⟨hcalls, Step.calls_ofGroup hsure, hnotes, Context.eq_of_merge_ok hmerge⟩

/-- On a path through the expansion of a text, its templates are asked for, and no messages are made.
The path gives the nodes of the steps with the answers. -/
theorem path_templateSteps {n : Node} {events : List Event} {nodes : List Node}
    (h : (Script.ofSteps n.templateSteps).Path events nodes) :
    (Event.talk events).map Prod.fst = (n.templates.map Template.Occurrence.call).map .template ∧
      events.filterMap Event.note? = [] ∧
      nodes = Step.outputs n.templateSteps ((Event.talk events).map Prod.snd) := by
  obtain ⟨hcalls, hnotes, hnodes, -⟩ := Script.path_ofSteps h
  exact ⟨hcalls.trans (calls_templateSteps n), hnotes.trans (notes_templateSteps n), hnodes⟩

/-- The expansion of a text asks for templates. -/
theorem asksOnly_templateSteps {Good : Call → List Node → Prop} {Able : Call → Prop}
    (h : ∀ call, Able (.template call)) (n : Node) :
    (Script.ofSteps n.templateSteps).AsksOnly Good Able := by
  refine Script.asksOnly_ofSteps fun call hcall => ?_
  rw [calls_templateSteps] at hcall
  obtain ⟨template, -, rfl⟩ := List.mem_map.mp hcall
  exact h template

section Paths

variable {tags : Tags} {child m : Node} {head : Head} {info : Info} {children rest ms : List Node}
  {events : List Event}

/-- A path through the script of a container goes through its children and then through its end. -/
theorem path_script_of_admits (hadmits : tags.admits (.node head info children) = true)
    (h : ((Node.node head info children).script tags).Path events m) :
    ∃ es fs spliced given, events = (es ++ fs).map (Event.under head) ∧
      (scripts tags children).Path es spliced ∧ (ending spliced).Path fs given ∧
      m = .node head info given := by
  rw [script_of_admits hadmits] at h
  obtain ⟨inside, rfl, hinside⟩ := Script.path_under h
  obtain ⟨front, last, given, rfl, hfront, hdone⟩ := Script.path_bind.mp hinside
  obtain ⟨es, fs, spliced, rfl, hchildren, hend⟩ := Script.path_bind.mp hfront
  obtain ⟨rfl, rfl⟩ := Script.path_done hdone
  exact ⟨es, fs, spliced, given, by rw [List.append_nil], hchildren, hend, rfl⟩

/-- A path through the script of children goes through the first of them, if it has no templates, and
then through the others. -/
theorem path_scripts_of_no_templates (ht : child.templates = [])
    (h : (scripts tags (child :: rest)).Path events ms) :
    ∃ es fs m others, events = es ++ fs ∧ (child.script tags).Path es m ∧
      (scripts tags rest).Path fs others ∧ ms = m :: others := by
  rw [scripts_of_no_templates ht] at h
  obtain ⟨es, back, m, rfl, hfirst, h⟩ := Script.path_bind.mp h
  obtain ⟨fs, last, others, rfl, hothers, hdone⟩ := Script.path_bind.mp h
  obtain ⟨rfl, rfl⟩ := Script.path_done hdone
  exact ⟨es, fs, m, others, by rw [List.append_nil], hfirst, hothers, rfl⟩

/-- A path through the script of children goes through the expansion of the first of them, if it has
templates, and then through the others. -/
theorem path_scripts_of_templates (ht : child.templates ≠ [])
    (h : (scripts tags (child :: rest)).Path events ms) :
    ∃ es fs nodes others, events = es ++ fs ∧ (Script.ofSteps child.templateSteps).Path es nodes ∧
      (scripts tags rest).Path fs others ∧ ms = nodes ++ others := by
  rw [scripts_of_templates ht] at h
  obtain ⟨es, back, nodes, rfl, hfirst, h⟩ := Script.path_bind.mp h
  obtain ⟨fs, last, others, rfl, hothers, hdone⟩ := Script.path_bind.mp h
  obtain ⟨rfl, rfl⟩ := Script.path_done hdone
  exact ⟨es, fs, nodes, others, by rw [List.append_nil], hfirst, hothers, rfl⟩

end Paths

end Node

open Node

/-! ## Walks carry out their scripts -/

namespace Context

variable {ctx : Context σ}

/-- A container is ended by its script. -/
theorem finish_eq_run (ns : List Node) (st : State σ)
    (hst : ∀ head ∈ st.stack, head.isRegular = true) :
    ctx.finish ns st = (ending ns).run ctx st := by
  unfold ending finish
  rw [Script.run_bind, Script.run_ofExcept]
  cases merge ns with
  | error fault => rfl
  | ok merged =>
    rw [Run.ofExcept_ok, pure_bind, pure_bind, resolveLinks, Script.run_bind, Script.run_ofExcept]
    cases Link.tokenize merged with
    | error fault => rfl
    | ok items =>
      rw [Run.ofExcept_ok, pure_bind, pure_bind, Script.run_bind, resolveGroups_eq_perform,
        Run.bind_apply, Run.bind_apply, Script.run_ofSteps _ st hst]
      cases ctx.perform ((Link.groups items).map Step.ofGroup) st with
      | error fault st' => rfl
      | ok output st' =>
        dsimp only
        rw [Script.run_ofExcept]

mutual

/-- A walk through a well-formed tree carries out its script. -/
theorem visit_eq_run (ctx : Context σ) : ∀ {n : Node}, n.wellFormed = true → ∀ st : State σ,
    (∀ head ∈ st.stack, head.isRegular = true) →
    match (n.script ctx.excluded).run ctx st with
    | .ok m st' => ctx.visit n st = ⟨m, none, st'⟩
    | .error fault st' => (ctx.visit n st).fault = some fault ∧ (ctx.visit n st).state = st'
  | .stray value, hn, _, _ => by simp [wellFormed] at hn
  | .node head info children, hn, st, hst => by
    cases hadmits : ctx.excluded.admits (.node head info children) with
    | false =>
      rw [script_of_not_admits hn hadmits]
      exact visit_of_not_admits hn hadmits st
    | true =>
      obtain ⟨hr, -, hchildren⟩ := wellFormed_node.mp hn
      have hpush := isRegular_of_mem_push hr hst
      have hbelow := ctx.visitChildren_eq_run hchildren (st.push head) hpush
      have hstack := Script.stack_run ctx (scripts ctx.excluded children) (st.push head)
      have hopen : ({ st with stack := st.stack ++ [head] } : State σ) = st.push head := rfl
      simp only [visit_of_admits hr hadmits st, script_of_admits hadmits, Script.run_under,
        Run.within, hopen, Script.run_bind, Run.bind_apply]
      cases hruns : (scripts ctx.excluded children).run ctx (st.push head) with
      | error fault st' =>
        -- The container is closed here as well.
        rw [hruns] at hbelow hstack
        simp [hbelow, pop_eq hstack]
      | ok spliced st' =>
        -- The end begins in the state that the children leave, with the container open.
        rw [hruns] at hbelow hstack
        dsimp only at hbelow hstack ⊢
        have hend := Script.stack_run ctx (ending spliced) st'
        rw [hbelow.1, hbelow.2.1, hbelow.2.2]
        dsimp only
        rw [finish_eq_run spliced st' (hstack ▸ hpush)]
        cases hgiven : (ending spliced).run ctx st' with
        | error fault st'' =>
          rw [hgiven] at hend
          simp [pop_eq (hend.trans hstack)]
        | ok given st'' =>
          rw [hgiven] at hend
          simp [pop_eq (hend.trans hstack), Script.run]

/-- A walk through well-formed children carries out their script. -/
theorem visitChildren_eq_run (ctx : Context σ) : ∀ {ns : List Node}, allWellFormed ns = true →
    ∀ st : State σ, (∀ head ∈ st.stack, head.isRegular = true) →
    match (scripts ctx.excluded ns).run ctx st with
    | .ok spliced st' => (ctx.visitChildren ns st).fault = none ∧
        (ctx.visitChildren ns st).value.spliced = spliced ∧ (ctx.visitChildren ns st).state = st'
    | .error fault st' =>
      (ctx.visitChildren ns st).fault = some fault ∧ (ctx.visitChildren ns st).state = st'
  | [], _, st, _ => by simp [scripts, Script.run, visitChildren]
  | child :: rest, hns, st, hst => by
    rw [allWellFormed, Bool.and_eq_true] at hns
    -- A child without a template is visited, a text with one is expanded.
    by_cases ht : child.templates = []
    · have hfirst := ctx.visit_eq_run hns.1 st hst
      have hstack := Script.stack_run ctx (child.script ctx.excluded) st
      rw [visitChildren_of_no_templates ctx hns.1 ht rest st, scripts_of_no_templates ht,
        Script.run_bind, Run.bind_apply]
      cases hrun : (child.script ctx.excluded).run ctx st with
      | error fault st' =>
        rw [hrun] at hfirst
        simp [hfirst]
      | ok m st' =>
        rw [hrun] at hfirst hstack
        have hrest := ctx.visitChildren_eq_run hns.2 st' (hstack ▸ hst)
        dsimp only at hfirst hstack ⊢
        rw [hfirst, Script.run_bind, Run.bind_apply]
        cases hruns : (scripts ctx.excluded rest).run ctx st' with
        | error fault st'' =>
          rw [hruns] at hrest
          simp [hrest]
        | ok others st'' =>
          rw [hruns] at hrest
          simp [hrest, Script.run]
    · rw [visitChildren_of_templates ctx hns.1 ht rest st, scripts_of_templates ht, Script.run_bind,
        Run.bind_apply, Script.run_ofSteps _ st hst]
      cases hrun : ctx.perform child.templateSteps st with
      | error fault st' => simp
      | ok nodes st' =>
        obtain ⟨talk, htalked, -, -⟩ := perform_ok hst hrun
        have hrest := ctx.visitChildren_eq_run hns.2 st' (htalked.stack ▸ hst)
        dsimp only
        rw [Script.run_bind, Run.bind_apply]
        cases hruns : (scripts ctx.excluded rest).run ctx st' with
        | error fault st'' =>
          rw [hruns] at hrest
          simp [hrest]
        | ok others st'' =>
          rw [hruns] at hrest
          simp [hrest, Script.run]

end

end Context

/-! ## Fit answers -/

namespace Node

/-- A node that can stand in a tree that is being processed: it is sound and can be displayed. -/
def isFit (n : Node) : Bool := n.isSound && n.displayable

/-- A fit node is sound and can be displayed. -/
theorem isFit_iff {n : Node} : n.isFit = true ↔ n.isSound = true ∧ n.displayable = true := by
  rw [isFit, Bool.and_eq_true]

/-- A new text is fit. -/
theorem isFit_text (s : String) : (text s).isFit = true :=
  isFit_iff.mpr ⟨isSound_text s, displayable_text s⟩

/-- A well-formed node is fit. -/
theorem isFit_of_wellFormed {n : Node} (h : n.wellFormed = true) : n.isFit = true :=
  isFit_iff.mpr ⟨isSound_of_wellFormed h, displayable_of_wellFormed h⟩

/-- A node whose head fits together is fit if its children are. -/
theorem isFit_of_isRegular {head : Head} {info : Info} {children : List Node}
    (hr : head.isRegular = true) (h : ∀ n ∈ children, n.isFit = true) :
    (Node.node head info children).isFit = true := by
  have hshown : allDisplayable children = true :=
    allDisplayable_iff.mpr fun n hn => (isFit_iff.mp (h n hn)).2
  refine isFit_iff.mpr ⟨isSound_of_isRegular hr info children, ?_⟩
  simp [displayable, Head.isBare_of_isRegular hr, hshown]

/-- Fit nodes are fit when they are merged. -/
theorem isFit_mergeText {ns : List Node} (h : ∀ n ∈ ns, n.isFit = true) :
    ∀ n ∈ mergeText ns, n.isFit = true := by
  intro n hn
  rcases mem_mergeText hn with hn | ⟨s, rfl⟩
  · exact h n hn
  · exact isFit_text s

/-- The nodes among the items of fit nodes are fit. -/
theorem isFit_items {ns : List Node} (h : ∀ n ∈ ns, n.isFit = true) :
    ∀ n, .node n ∈ Link.items ns → n.isFit = true := by
  intro n hn
  rcases Link.mem_items hn with hn | ⟨s, rfl⟩
  · exact h n hn
  · exact isFit_text s

end Node

/-- Whether an answer to a call has fit nodes only. -/
def Fit (_ : Call) (nodes : List Node) : Prop := ∀ n ∈ nodes, n.isFit = true

namespace Node

/-! ## Scripts that come to their end -/

/-- The steps for the links of fit nodes do with their items what these call for. -/
theorem resolvedBy_linkSteps {ns : List Node} (h : ∀ n ∈ ns, n.isFit = true) :
    Link.ResolvedBy (linkSteps ns) (Link.items (mergeText ns)) :=
  Link.resolvedBy_groups fun n hn => isFit_iff.mp (isFit_items (isFit_mergeText h) n hn)

/-- A container is ended by the steps for the links of its children. -/
theorem ending_of_isFit {ns : List Node} (h : ∀ n ∈ ns, n.isFit = true) :
    ending ns = (Script.ofSteps (linkSteps ns)).bind fun output =>
      Script.ofExcept (merge output) := by
  have hmerged : Link.tokenize (mergeText ns) = .ok (Link.items (mergeText ns)) :=
    Link.tokenize_of_isSound fun n hn => (isFit_iff.mp (isFit_mergeText h n hn)).1
  unfold ending
  rw [merge_of_isSound fun n hn => (isFit_iff.mp (h n hn)).1, Script.ofExcept, Script.bind, hmerged,
    Script.ofExcept, Script.bind, linkSteps]

/-- The steps for the links of fit nodes keep fit nodes only. -/
theorem isFit_kept_linkSteps {ns : List Node} (h : ∀ n ∈ ns, n.isFit = true) :
    ∀ step ∈ linkSteps ns, ∀ n ∈ step.kept, n.isFit = true := by
  intro step hstep n hn
  obtain ⟨g, hg, rfl⟩ := List.mem_map.mp hstep
  rcases Context.mem_kept_ofGroup hn with hnode | ⟨s, rfl⟩
  · have hitem := Link.mem_of_mem_groups hg hnode
    exact isFit_items (isFit_mergeText h) n hitem
  · exact isFit_text s

/-- The steps for the templates of a node keep texts only. -/
theorem text_of_kept_templateSteps {n : Node} :
    ∀ step ∈ n.templateSteps, ∀ m ∈ step.kept, ∃ s, m = text s := by
  intro step hstep m hm
  obtain ⟨piece, -, rfl⟩ := List.mem_map.mp hstep
  cases piece with
  | literal s => exact ⟨s, List.mem_singleton.mp hm⟩
  | call call => simp [Step.ofPiece, Step.kept] at hm

section Always

variable {Good : Call → List Node → Prop} {tags : Tags}

/-- A container whose children have become fit nodes is ended, and is given fit nodes. -/
theorem always_ending (hgood : ∀ call nodes, Good call nodes → Fit call nodes) {ns : List Node}
    (h : ∀ n ∈ ns, n.isFit = true) :
    (ending ns).Always Good fun given => ∀ n ∈ given, n.isFit = true := by
  -- Neither merging nor cutting fails, so what is left are the steps for the links.
  have hsure := (resolvedBy_linkSteps h).sure
  rw [ending_of_isFit h]
  refine Script.Always.bind (Script.always_ofSteps hgood ?_ ?_ (isFit_kept_linkSteps h))
    fun output houtput => ?_
  · intro fault hmem
    simpa [Step.isSure] using hsure _ hmem
  · intro note hnote
    obtain ⟨step, hstep, hsome⟩ := List.mem_filterMap.mp hnote
    cases step with
    | tell other nodes =>
      obtain rfl : other = note := Option.some.inj hsome
      have hproper := hsure _ hstep
      rw [Step.isSure, Bool.and_eq_true] at hproper
      exact hproper.1
    | _ => simp [Step.note?] at hsome
  · rw [merge_of_isSound fun n hn => (isFit_iff.mp (houtput n hn)).1]
    exact isFit_mergeText houtput

/-- The templates of a text are expanded to fit nodes. -/
theorem always_templateSteps (hgood : ∀ call nodes, Good call nodes → Fit call nodes) (n : Node) :
    (Script.ofSteps n.templateSteps).Always Good fun nodes => ∀ m ∈ nodes, m.isFit = true := by
  refine Script.always_ofSteps hgood (fun fault hmem => ?_) (fun note hnote => ?_)
    fun step hstep m hm => ?_
  · obtain ⟨piece, -, hpiece⟩ := List.mem_map.mp hmem
    cases piece <;> simp [Step.ofPiece] at hpiece
  · simp [notes_templateSteps] at hnote
  · obtain ⟨s, rfl⟩ := text_of_kept_templateSteps step hstep m hm
    exact isFit_text s

mutual

/-- A walk through a well-formed tree comes to its end if all answers are fit, and gives a fit
node. -/
theorem always_script (hgood : ∀ call nodes, Good call nodes → Fit call nodes) : ∀ {n : Node},
    n.wellFormed = true → (n.script tags).Always Good fun m => m.isFit = true
  | .stray value, hn => by simp [wellFormed] at hn
  | .node head info children, hn => by
    cases hadmits : tags.admits (.node head info children) with
    | false =>
      rw [script_of_not_admits hn hadmits]
      exact isFit_of_wellFormed hn
    | true =>
      obtain ⟨hr, -, hchildren⟩ := wellFormed_node.mp hn
      rw [script_of_admits hadmits]
      refine Script.Always.under hr ?_
      refine ((always_scripts hgood hchildren).bind fun spliced h =>
        always_ending hgood h).bind fun given hgiven => ?_
      exact isFit_of_isRegular hr hgiven

/-- A walk through well-formed children comes to its end if all answers are fit, and gives fit
nodes. -/
theorem always_scripts (hgood : ∀ call nodes, Good call nodes → Fit call nodes) :
    ∀ {ns : List Node}, allWellFormed ns = true →
      (scripts tags ns).Always Good fun ms => ∀ m ∈ ms, m.isFit = true
  | [], _ => by
    rw [scripts, Script.Always]
    simp
  | child :: rest, hns => by
    rw [allWellFormed, Bool.and_eq_true] at hns
    have hrest {nodes : List Node} (h : ∀ m ∈ nodes, m.isFit = true) :
        ((scripts tags rest).bind fun others => .done (nodes ++ others)).Always Good
          fun ms => ∀ m ∈ ms, m.isFit = true :=
      (always_scripts hgood hns.2).bind fun others hothers m hm =>
        (List.mem_append.mp hm).elim (h m) (hothers m)
    by_cases ht : child.templates = []
    · rw [scripts_of_no_templates ht]
      refine (always_script hgood hns.1).bind fun m hm => ?_
      have hfirst : ∀ k ∈ [m], k.isFit = true := by simpa using hm
      exact hrest hfirst
    · rw [scripts_of_templates ht]
      exact (always_templateSteps hgood child).bind fun nodes h => hrest h

end

end Always

end Node

/-! ## Walks along a path -/

namespace Context

variable {ctx : Context σ} {n : Node} {st : State σ}

/-- The resolvers answer every call, in any state, with fit nodes. -/
def Answering (ctx : Context σ) : Prop :=
  ∀ call world, ∃ nodes next, ctx.answer? call world = some (nodes, next) ∧ Fit call nodes

/-- The resolvers of `echo` answer every call. -/
theorem answering_echo : echo.Answering := by
  intro call world
  cases call with
  | link reference =>
    refine ⟨[Node.text reference.file], world, rfl, fun n hn => ?_⟩
    exact List.mem_singleton.mp hn ▸ isFit_text _
  | template call =>
    refine ⟨[Node.text call.file], world, rfl, fun n hn => ?_⟩
    exact List.mem_singleton.mp hn ▸ isFit_text _

/-- A walk along a path on which everything is proper gives its value, and leaves what its events
leave. -/
theorem visit_of_path {events : List Event} {m : Node} {world : σ} (hn : n.wellFormed = true)
    (hpath : (n.script ctx.excluded).Path events m) (hproper : ∀ e ∈ events, e.isProper = true)
    (hst : ∀ head ∈ st.stack, head.isRegular = true) (hplays : ctx.Plays st.world events world) :
    ctx.visit n st = ⟨m, none, st.after events world⟩ := by
  have hvisit := ctx.visit_eq_run hn st hst
  rwa [Script.run_of_path hpath hproper st hst hplays] at hvisit

/-- A walk that comes to its end along a path: it gives the value of the path and leaves what its
events leave. -/
structure Follows (ctx : Context σ) (n : Node) (st : State σ) (events : List Event) (m : Node)
    (world : σ) : Prop where
  /-- The path is one through the script of the walk. -/
  path : (n.script ctx.excluded).Path events m
  /-- The resolvers play their part in the events. -/
  plays : ctx.Plays st.world events world
  /-- All that happens is proper. -/
  proper : ∀ e ∈ events, e.isProper = true
  /-- The value is fit. -/
  fit : m.isFit = true
  /-- The walk gives the value and leaves what the events leave. -/
  visit : ctx.visit n st = ⟨m, none, st.after events world⟩

end Context

end Transclude
