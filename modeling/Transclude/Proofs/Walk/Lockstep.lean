import Transclude.Proofs.Walk.Responsive

/-!
# Two runs side by side

Two runs through the same tree ask for the same templates, whatever they are answered. They make all
calls alike if the answers for templates have the same texts on their top level, whatever else the
answers hold: `Script.Lockstep` says so of scripts, and `process_lockstep` of runs.
-/

namespace Transclude

variable {σ τ α β α' β' : Type}

/-! ## Templates in talks -/

/-- The template call of a call, if it is one for a template. -/
def Call.template? : Call → Option TemplateCall
  | .template call => some call
  | .link _ => none

namespace Talk

/-- The template calls of a talk. -/
def templateCalls (talk : List (Call × List Node)) : List TemplateCall :=
  talk.filterMap fun x => x.1.template?

/-- The patterns of the answers to the template calls of a talk. -/
def templatePatterns (talk : List (Call × List Node)) : List (List (Option String)) :=
  talk.filterMap fun x => x.1.template?.map fun _ => Node.textPattern x.2

variable (talk more : List (Call × List Node))

/-- The template calls of a talk come before those of what follows. -/
theorem templateCalls_append :
    templateCalls (talk ++ more) = templateCalls talk ++ templateCalls more :=
  List.filterMap_append

/-- The template answers of a talk come before those of what follows. -/
theorem templatePatterns_append :
    templatePatterns (talk ++ more) = templatePatterns talk ++ templatePatterns more :=
  List.filterMap_append

variable {talk}

/-- A talk about templates only. -/
theorem of_templates {calls : List TemplateCall} (h : talk.map Prod.fst = calls.map .template) :
    templateCalls talk = calls ∧
      templatePatterns talk = (talk.map Prod.snd).map Node.textPattern := by
  induction talk generalizing calls with
  | nil =>
    obtain rfl : calls = [] := by simpa using h.symm
    exact ⟨rfl, rfl⟩
  | cons x rest ih =>
    obtain ⟨call, nodes⟩ := x
    cases calls with
    | nil => simp at h
    | cons first others =>
      obtain ⟨rfl, hrest⟩ : call = .template first ∧ rest.map Prod.fst = others.map .template := by
        simpa using h
      obtain ⟨hcalls, hpatterns⟩ := ih hrest
      exact ⟨congrArg (first :: ·) hcalls, congrArg (Node.textPattern nodes :: ·) hpatterns⟩

/-- A talk about links only. -/
theorem of_links {references : List LinkReference}
    (h : talk.map Prod.fst = references.map .link) :
    templateCalls talk = [] ∧ templatePatterns talk = [] := by
  have hnone : ∀ x ∈ talk, x.1.template? = none := by
    intro x hx
    have hcall : x.1 ∈ references.map .link := h ▸ List.mem_map.mpr ⟨x, hx, rfl⟩
    obtain ⟨reference, -, hlink⟩ := List.mem_map.mp hcall
    rw [← hlink]
    rfl
  refine ⟨List.filterMap_eq_nil_iff.mpr hnone, List.filterMap_eq_nil_iff.mpr fun x hx => ?_⟩
  rw [hnone x hx]
  rfl

end Talk

/-! ## The templates of a tree -/

namespace Node

mutual

/-- The texts of a tree that a walk searches for templates, in the order of the document. -/
def searched (tags : Tags) : Node → List String
  | .stray _ => []
  | .node head info children =>
    if tags.admits (.node head info children) then searchedAmong tags children else []

/-- The texts among children, and those in the containers among them. -/
def searchedAmong (tags : Tags) : List Node → List String
  | [] => []
  | child :: rest => child.text?.toList ++ searched tags child ++ searchedAmong tags rest

end

/-- The template calls of a tree: those of the texts that a walk searches. -/
def templateCalls (tags : Tags) (n : Node) : List TemplateCall :=
  (n.searched tags).flatMap fun s => (Template.scan s).map Template.Occurrence.call

/-- Nothing is searched in what a walk does not go into. -/
theorem searched_of_not_admits {tags : Tags} {n : Node} (h : tags.admits n = false) :
    n.searched tags = [] := by
  cases n with
  | stray value => rw [searched]
  | node head info children =>
    rw [searched, h]
    rfl

/-- The templates of the text of a node. -/
theorem flatMap_scan_text? (n : Node) :
    (n.text?.toList.flatMap fun s => (Template.scan s).map Template.Occurrence.call) =
      n.templates.map Template.Occurrence.call := by
  unfold templates
  cases n.text? <;> simp

variable {tags : Tags} {events : List Event}

mutual

/-- On every path through the script of a walk, the templates of the tree are asked for. -/
theorem templateCalls_of_path : ∀ {n : Node} {events : List Event} {m : Node},
    (n.script tags).Path events m →
    Talk.templateCalls (Event.talk events) = n.templateCalls tags
  | .stray value, events, m, h => by
    rw [script] at h
    cases h
  | .node head info children, events, m, h => by
    unfold templateCalls
    cases hadmits : tags.admits (.node head info children) with
    | false =>
      rw [script, hadmits] at h
      obtain ⟨rfl, -⟩ := Script.path_done h
      rw [searched_of_not_admits hadmits]
      rfl
    | true =>
      obtain ⟨es, fs, spliced, given, rfl, hchildren, hend, -⟩ := path_script_of_admits hadmits h
      obtain ⟨hcalls, hreferences, -⟩ := path_ending hend
      have hlinks := hcalls.trans hreferences
      rw [Event.talk_map_under, Event.talk_append, Talk.templateCalls_append,
        (Talk.of_links hlinks).1, List.append_nil, searched, if_pos hadmits]
      exact templateCallsAmong_of_path hchildren

/-- On every path through the script of a walk through children, their templates are asked for. -/
theorem templateCallsAmong_of_path : ∀ {ns : List Node} {events : List Event} {ms : List Node},
    (scripts tags ns).Path events ms →
    Talk.templateCalls (Event.talk events) =
      (searchedAmong tags ns).flatMap fun s => (Template.scan s).map Template.Occurrence.call
  | [], events, ms, h => by
    rw [scripts] at h
    obtain ⟨rfl, -⟩ := Script.path_done h
    rw [searchedAmong]
    rfl
  | child :: rest, events, ms, h => by
    rw [searchedAmong, List.flatMap_append, List.flatMap_append, flatMap_scan_text?]
    by_cases ht : child.templates = []
    · obtain ⟨es, fs, m, others, rfl, hfirst, hothers, -⟩ := path_scripts_of_no_templates ht h
      rw [Event.talk_append, Talk.templateCalls_append, templateCalls_of_path hfirst,
        templateCallsAmong_of_path hothers, ht]
      rfl
    · obtain ⟨es, fs, nodes, others, rfl, hsteps, hothers, -⟩ := path_scripts_of_templates ht h
      obtain ⟨hcalls, -⟩ := path_templateSteps hsteps
      obtain ⟨s, hs⟩ := text?_of_templates ht
      rw [Event.talk_append, Talk.templateCalls_append, (Talk.of_templates hcalls).1,
        templateCallsAmong_of_path hothers, searched_of_not_admits (admits_of_text? hs tags)]
      simp

end

end Node

/-! ## Scripts in lockstep -/

namespace Script

/-- Two scripts that make their calls alike and give related values on all paths on which template
answers have the same pattern. Some answers may be left over, the same for both. -/
def Lockstep (R : α → α' → Prop) (s : Script α) (s' : Script α') : Prop :=
  ∀ ⦃es es' : List Event⦄ ⦃a : α⦄ ⦃a' : α'⦄ ⦃more more' : List (List (Option String))⦄,
    s.Path es a → s'.Path es' a' →
    Talk.templatePatterns (Event.talk es) ++ more =
      Talk.templatePatterns (Event.talk es') ++ more' →
    List.Forall₂ Call.Alike ((Event.talk es).map Prod.fst) ((Event.talk es').map Prod.fst) ∧
      R a a' ∧ more = more'

variable {R : α → α' → Prop} {S : β → β' → Prop} {s : Script α} {s' : Script α'}

/-- Values are in lockstep if they are related. -/
theorem lockstep_done {a : α} {a' : α'} (h : R a a') : Lockstep R (done a) (done a') := by
  intro es es' b b' more more' hpath hpath' hmore
  obtain ⟨rfl, rfl⟩ := path_done hpath
  obtain ⟨rfl, rfl⟩ := path_done hpath'
  exact ⟨.nil, h, hmore⟩

/-- Scripts stay in lockstep if they go on in lockstep. -/
theorem Lockstep.bind {f : α → Script β} {f' : α' → Script β'} (h : Lockstep R s s')
    (hrest : ∀ a a', R a a' → Lockstep S (f a) (f' a')) : Lockstep S (s.bind f) (s'.bind f') := by
  intro es es' b b' more more' hpath hpath' hmore
  obtain ⟨fs, gs, a, rfl, hfirst, hlast⟩ := path_bind.mp hpath
  obtain ⟨fs', gs', a', rfl, hfirst', hlast'⟩ := path_bind.mp hpath'
  simp only [Event.talk_append, Talk.templatePatterns_append, List.append_assoc] at hmore
  -- The answers to the second parts are left over by the first.
  obtain ⟨hcalls, hrel, hlater⟩ := h hfirst hfirst' hmore
  obtain ⟨hcalls', hrel', hmore⟩ := hrest a a' hrel hlast hlast' hlater
  rw [Event.talk_append, Event.talk_append, List.map_append, List.map_append]
  exact ⟨List.rel_append hcalls hcalls', hrel', hmore⟩

/-- Scripts are in lockstep within a container. -/
theorem Lockstep.under (head : Head) (h : Lockstep R s s') :
    Lockstep R (s.under head) (s'.under head) := by
  intro es es' a a' more more' hpath hpath' hmore
  obtain ⟨fs, rfl, hfs⟩ := path_under hpath
  obtain ⟨fs', rfl, hfs'⟩ := path_under hpath'
  simp only [Event.talk_map_under] at hmore ⊢
  exact h hfs hfs' hmore

end Script

/-- Steps give nodes of the same pattern if the answers have the same patterns. -/
theorem Step.textPattern_outputs (steps : List Step) {answers answers' : List (List Node)}
    (h : answers.map Node.textPattern = answers'.map Node.textPattern) :
    Node.textPattern (outputs steps answers) = Node.textPattern (outputs steps answers') := by
  unfold Node.textPattern at h ⊢
  induction steps generalizing answers answers' with
  | nil => rfl
  | cons step rest ih =>
    cases step with
    | keep nodes => simp only [outputs, List.map_append, ih h]
    | tell note nodes => simp only [outputs, List.map_append, ih h]
    | fail fault => simpa only [outputs] using ih h
    | ask call =>
      cases answers with
      | nil =>
        obtain rfl : answers' = [] := by simpa using h.symm
        rfl
      | cons first others =>
        cases answers' with
        | nil => simp at h
        | cons first' others' =>
          obtain ⟨hfirst, hothers⟩ := List.cons_eq_cons.mp h
          simp only [outputs, List.map_append, List.headD_cons, List.tail_cons, hfirst, ih hothers]

namespace Node

/-- The steps for the templates of a text are in lockstep with themselves. -/
theorem lockstep_templateSteps (n : Node) :
    Script.Lockstep (fun ns ms => textPattern ns = textPattern ms) (Script.ofSteps n.templateSteps)
      (Script.ofSteps n.templateSteps) := by
  intro es es' ns ms more more' hpath hpath' hmore
  obtain ⟨hcalls, -, rfl⟩ := path_templateSteps hpath
  obtain ⟨hcalls', -, rfl⟩ := path_templateSteps hpath'
  -- There are as many answers as templates, on both paths.
  have hlength : (Event.talk es).length = (Event.talk es').length := by
    have h := congrArg List.length (hcalls.trans hcalls'.symm)
    simpa using h
  rw [(Talk.of_templates hcalls).2, (Talk.of_templates hcalls').2] at hmore
  obtain ⟨hanswers, hmore⟩ := List.append_inj hmore (by simpa using hlength)
  refine ⟨?_, Step.textPattern_outputs _ hanswers, hmore⟩
  rw [hcalls, hcalls']
  refine List.forall₂_same.mpr fun call hcall => ?_
  obtain ⟨template, -, rfl⟩ := List.mem_map.mp hcall
  exact .template template

/-- Containers whose children have become nodes of the same pattern are ended in lockstep. -/
theorem lockstep_ending {ns ms : List Node} (h : textPattern ns = textPattern ms) :
    Script.Lockstep (fun _ _ => True) (ending ns) (ending ms) := by
  intro es es' ks ls more more' hpath hpath' hmore
  obtain ⟨hcalls, hreferences, -⟩ := path_ending hpath
  obtain ⟨hcalls', hreferences', -⟩ := path_ending hpath'
  have hlinks := hcalls.trans hreferences
  have hlinks' := hcalls'.trans hreferences'
  rw [(Talk.of_links hlinks).2, (Talk.of_links hlinks').2] at hmore
  refine ⟨?_, trivial, hmore⟩
  rw [hlinks, hlinks', List.forall₂_map_left_iff, List.forall₂_map_right_iff]
  exact (Link.alike_references h).imp fun _ _ => .link

mutual

/-- The script of a walk is in lockstep with itself. It gives similar nodes. -/
theorem lockstep_script (tags : Tags) : ∀ n : Node,
    Script.Lockstep Similar (n.script tags) (n.script tags)
  | .stray value => by
    intro es es' a a' more more' hpath
    rw [script] at hpath
    cases hpath
  | .node head info children => by
    cases hadmits : tags.admits (.node head info children) with
    | false =>
      rw [script, hadmits]
      exact Script.lockstep_done rfl
    | true =>
      rw [script_of_admits hadmits]
      refine Script.Lockstep.under head ?_
      refine ((lockstep_scripts tags children).bind fun ns ms h => lockstep_ending h).bind ?_
      exact fun given given' _ => Script.lockstep_done rfl

/-- The script of a walk through children is in lockstep with itself. It gives nodes of the same
pattern. -/
theorem lockstep_scripts (tags : Tags) : ∀ ns : List Node,
    Script.Lockstep (fun ns ms => textPattern ns = textPattern ms) (scripts tags ns)
      (scripts tags ns)
  | [] => by
    rw [scripts]
    exact Script.lockstep_done rfl
  | child :: rest => by
    -- The nodes of the first child come before those of the others.
    have hrest {ns ms : List Node} (h : textPattern ns = textPattern ms) :
        Script.Lockstep (fun ns ms => textPattern ns = textPattern ms)
          ((scripts tags rest).bind fun others => .done (ns ++ others))
          ((scripts tags rest).bind fun others => .done (ms ++ others)) := by
      refine (lockstep_scripts tags rest).bind fun ks ls hothers => Script.lockstep_done ?_
      unfold textPattern at h hothers ⊢
      rw [List.map_append, List.map_append, h, hothers]
    by_cases ht : child.templates = []
    · rw [scripts_of_no_templates ht]
      refine (lockstep_script tags child).bind fun n m h => ?_
      have hfirst : textPattern [n] = textPattern [m] := congrArg (fun t => [t]) h
      exact hrest hfirst
    · rw [scripts_of_templates ht]
      exact (lockstep_templateSteps child).bind fun ns ms h => hrest h

end

end Node

/-! ## Runs -/

namespace Context

open Node

/-- Whatever resolvers answer as a talk goes up to one of its calls, and do not answer this call, a
run with them fails, and has made the calls of the talk up to this one. -/
def CutShort (tags : Tags) (t : Node) (talk : List (Call × List Node)) : Prop :=
  ∀ {υ : Type} (ctx : Context υ) (st : State υ) (front : List (Call × List Node)) (call : Call)
    (answer : List Node) (back : List (Call × List Node)) (next : υ), ctx.excluded = tags →
    talk = front ++ (call, answer) :: back → ctx.Hears st.world front next →
    ctx.canPut call = true → ctx.answer? call next = none →
    (ctx.process t st).fault ≠ none ∧
      (ctx.process t st).state.calls = st.calls ++ front.map Prod.fst ++ [call]

/-- A run that comes to its end after a talk in which all templates of the tree are asked for. -/
structure Completes (ctx : Context σ) (t : Node) (st : State σ) (talk : List (Call × List Node)) :
    Prop where
  /-- The run does not fail. -/
  fault : (ctx.process t st).fault = none
  /-- The talk is the one that was had. -/
  talked : ctx.Talked (fresh st) talk (ctx.process t st).state
  /-- The templates of the tree are asked for, in the order of the document. -/
  templates : Talk.templateCalls talk = t.templateCalls ctx.excluded
  /-- A run that gets no answer to a call of the talk fails there. -/
  cutShort : CutShort ctx.excluded t talk

/-- A run along a path is cut short where a call has no answer. -/
theorem cutShort_of_path {tags : Tags} {t m : Node} {events : List Event} (ht : t.wellFormed = true)
    (hpath : (t.script tags).Path events m) (hproper : ∀ e ∈ events, e.isProper = true) :
    CutShort tags t (Event.talk events) := by
  intro υ ctx st front call answer back next htags htalk hhears hput hnone
  subst htags
  obtain ⟨fault, st', hrun, hcalls⟩ := Script.error_of_path hpath hproper (fresh st)
    (isRegular_of_mem_fresh st) htalk hhears hput hnone
  have hvisit := ctx.visit_eq_run ht (fresh st) (isRegular_of_mem_fresh st)
  rw [hrun] at hvisit
  rw [process_of_wellFormed ht, hvisit.1, hvisit.2]
  exact ⟨by simp, hcalls⟩

/-- A walk along a path completes its run. -/
theorem Follows.completes {ctx : Context σ} {t m : Node} {st : State σ} {events : List Event}
    {world : σ} (ht : t.wellFormed = true) (h : ctx.Follows t (fresh st) events m world) :
    ctx.Completes t st (Event.talk events) where
  fault := by rw [process_of_wellFormed ht, h.visit]
  talked := by
    rw [process_of_wellFormed ht, h.visit]
    exact ⟨h.plays.hears, rfl, rfl⟩
  templates := templateCalls_of_path h.path
  cutShort := cutShort_of_path ht h.path h.proper

/-- A context whose resolvers put what `echo` answers for a link in an element. -/
def enclose : Context Unit where
  link := .function fun reference world =>
    { outcome := .ok (.list [.element "a" [] [Node.text reference.file]]), world := world }
  template := echo.template

/-- The resolvers of `enclose` answer every call. -/
theorem answering_enclose : enclose.Answering := by
  intro call world
  cases call with
  | link reference =>
    refine ⟨[.element "a" [] [Node.text reference.file]], world, rfl, fun n hn => ?_⟩
    refine List.mem_singleton.mp hn ▸ isFit_of_isRegular rfl fun m hm => ?_
    exact List.mem_singleton.mp hm ▸ isFit_text _
  | template call => exact answering_echo (.template call) world

/-- A document with templates and links in it and in an element, and with an element of code. -/
def nestedCalls : Node :=
  .root [.text "::a|x:: [[b|", .element "p" [] [.text "[[c]] ::[[::"], .text "]]",
    .element "code" [] [.text "::d::"]]

end Context

end Transclude
