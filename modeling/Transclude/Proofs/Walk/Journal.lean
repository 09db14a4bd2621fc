import Transclude.Proofs.Run.Journal
import Transclude.Proofs.Walk.Script

/-!
# Where messages come from

A walk through a tree does one task after the other: it expands the templates of a text, or it
resolves the links among what the children of a container have become. `Node.tasks` lists the tasks
in order. `exists_segments_of_leads` divides all that happens in a walk, also in one that fails, into
segments, one for each task that was begun, and says that what happens in a segment happens in the
containers from the top down to the one that the task is about. So `process_located` can say which
messages a run leaves and what their paths are.
-/

namespace Transclude

variable {σ : Type}

/-! ## Tasks -/

/-- A part of the work of a walk. -/
inductive Task where
  /-- The templates of the child at an index in the container at a place are expanded. -/
  | expand (p : Node.Place) (i : Nat)
  /-- The links among what the children of the container at a place have become are resolved. -/
  | resolve (p : Node.Place)
deriving DecidableEq, Repr

namespace Task

/-- The place of the container that a task is about. -/
def place : Task → Node.Place
  | .expand p _ => p
  | .resolve p => p

/-- A task in the child at an index, as seen from the parent. -/
def under (i : Nat) : Task → Task
  | .expand p j => .expand (i :: p) j
  | .resolve p => .resolve (i :: p)

/-- The place of a task in a child is in the child. -/
theorem place_under (i : Nat) (task : Task) : (task.under i).place = i :: task.place := by
  cases task <;> rfl

end Task

namespace Node

mutual

/-- The tasks of a walk through a tree, in order. -/
def tasks (tags : Tags) : Node → List Task
  | .stray _ => []
  | .node head info children =>
    if tags.admits (.node head info children) then tasksFrom tags 0 children ++ [.resolve []]
    else []

/-- The tasks of a walk through the children of a container, from an index on. -/
def tasksFrom (tags : Tags) (i : Nat) : List Node → List Task
  | [] => []
  | child :: rest =>
    (if child.templates.isEmpty then (tasks tags child).map (Task.under i) else [.expand [] i]) ++
      tasksFrom tags (i + 1) rest

end

/-- The containers from the top down to a place, that at the place being the last. -/
def downTo : Place → Node → List Head
  | _, .stray _ => []
  | [], .node head _ _ => [head]
  | i :: p, .node head _ children =>
    head :: match children[i]? with
      | some child => downTo p child
      | none => []

/-- The containers down to a place in a child are the parent and those in the child. -/
theorem downTo_cons {head : Head} {info : Info} {children : List Node} {i : Nat} {child : Node}
    (hchild : children[i]? = some child) (p : Place) :
    downTo (i :: p) (.node head info children) = head :: downTo p child := by
  rw [downTo, hchild]

end Node

open Node

namespace Task

variable {tags : Tags}

/-- Whether something is what a task is about, or the beginning of it, in the container of the task:
calls for the templates of a child, or the messages and calls for the links among what the children
may become. -/
def Concerns (tags : Tags) (container : Node) : Task → List Matter → Prop
  | .expand _ i, matters => ∃ child, container.children[i]? = some child ∧
      matters <+: child.templates.map fun o => .call (.template o.call)
  | .resolve _, matters => ∃ front spliced, (scripts tags container.children).Path front spliced ∧
      matters <+: (linkSteps spliced).filterMap Step.matter?

/-- Whether some events are those of a task in a walk through a tree: they happen in the containers
from the top down to that of the task, and are about what the task is about. -/
structure Covers (tags : Tags) (t : Node) (task : Task) (events : List Event) : Prop where
  /-- The containers are those down to that of the task. -/
  inner : ∀ e ∈ events, e.inner = t.downTo task.place
  /-- What happens is what the task is about. -/
  concerns : ∃ container, at? task.place t = some container ∧
    task.Concerns tags container (events.map Event.matter)

/-- Events in a container are about the same. -/
theorem map_matter_map_under (head : Head) (events : List Event) :
    (events.map (Event.under head)).map Event.matter = events.map Event.matter := by
  rw [List.map_map]
  exact List.map_congr_left fun e _ => e.matter_under head

/-- The events of a task for the container at the top are those of the task, with the container
around them. -/
theorem covers_top {task : Task} {head : Head} {info : Info} {children : List Node}
    {events : List Event} (hplace : task.place = []) (hinner : ∀ e ∈ events, e.inner = [])
    (h : task.Concerns tags (.node head info children) (events.map Event.matter)) :
    task.Covers tags (.node head info children) (events.map (Event.under head)) := by
  refine ⟨fun e he => ?_, .node head info children, ?_, ?_⟩
  · obtain ⟨inside, hinside, rfl⟩ := List.mem_map.mp he
    rw [Event.inner_under, hplace, hinner inside hinside]
    rfl
  · rw [hplace]
    rfl
  · rw [map_matter_map_under]
    exact h

/-- The events of a task in a child are those of the task in the parent, with this around them. -/
theorem Covers.under {task : Task} {head : Head} {info : Info} {children : List Node} {i : Nat}
    {child : Node} {events : List Event} (h : task.Covers tags child events)
    (hchild : children[i]? = some child) :
    (task.under i).Covers tags (.node head info children) (events.map (Event.under head)) := by
  obtain ⟨hinner, container, hat, hconcerns⟩ := h
  refine ⟨fun e he => ?_, container, ?_, ?_⟩
  · obtain ⟨inside, hinside, rfl⟩ := List.mem_map.mp he
    rw [Event.inner_under, place_under, downTo_cons hchild, hinner inside hinside]
  · rw [place_under]
    exact at?_cons.mpr ⟨child, hchild, hat⟩
  · rw [map_matter_map_under]
    cases task <;> exact hconcerns

end Task

/-! ## The segments of a walk -/

/-- What happens in a walk, task by task. -/
abbrev Segments := List (Task × List Event)

namespace Segments

/-- All events, in order. -/
def events (segments : Segments) : List Event := segments.flatMap Prod.snd

/-- The tasks that were begun. -/
def tasks (segments : Segments) : List Task := segments.map Prod.fst

/-- The events of one segment. -/
theorem events_single (task : Task) (es : List Event) : events [(task, es)] = es :=
  List.append_nil es

/-- The events of a segment come before those of the segments after it. -/
theorem events_cons (task : Task) (es : List Event) (segments : Segments) :
    events ((task, es) :: segments) = es ++ segments.events := rfl

/-- The events of segments come one after the other. -/
theorem events_append (segments others : Segments) :
    events (segments ++ others) = segments.events ++ others.events := List.flatMap_append

/-- Segments in a child, as seen from the parent. -/
def under (head : Head) (i : Nat) (segments : Segments) : Segments :=
  segments.map fun segment => (segment.1.under i, segment.2.map (Event.under head))

/-- The events of segments in a child have the parent around them. -/
theorem events_under (head : Head) (i : Nat) (segments : Segments) :
    (segments.under head i).events = segments.events.map (Event.under head) := by
  unfold events under
  rw [List.flatMap_map, List.map_flatMap]

/-- The tasks of segments in a child. -/
theorem tasks_under (head : Head) (i : Nat) (segments : Segments) :
    (segments.under head i).tasks = segments.tasks.map (Task.under i) := by
  unfold tasks under
  rw [List.map_map, List.map_map]
  rfl

end Segments

/-- Whether segments are those of a walk through a tree that does the tasks of a plan. The tasks are
begun in order, and all of them if the walk comes to its end. -/
structure Divides (tags : Tags) (t : Node) (plan : List Task) (finished : Prop)
    (segments : Segments) : Prop where
  /-- The tasks are begun in order. -/
  begun : segments.tasks <+: plan
  /-- All of them are begun if the walk comes to its end. -/
  all : finished → segments.tasks = plan
  /-- What happens in a segment are the events of its task. -/
  covers : ∀ segment ∈ segments, segment.1.Covers tags t segment.2

namespace Divides

variable {tags : Tags} {t : Node} {plan more : List Task} {finished : Prop}
  {segments others : Segments}

/-- Nothing is begun. -/
theorem nil (h : finished → plan = []) : Divides tags t plan finished [] :=
  ⟨List.nil_prefix, fun hf => (h hf).symm, by simp⟩

/-- A walk that breaks off has begun no later task. -/
theorem breaks (h : Divides tags t plan finished segments) (hplan : plan <+: more) {later : Prop}
    (hlater : ¬ later) : Divides tags t more later segments :=
  ⟨h.begun.trans hplan, fun hl => absurd hl hlater, h.covers⟩

/-- A walk that comes to its end goes on with the tasks after it. -/
theorem append {later : Prop} (h : Divides tags t plan finished segments) (hf : finished)
    (hmore : Divides tags t more later others) :
    Divides tags t (plan ++ more) later (segments ++ others) := by
  have htasks : Segments.tasks (segments ++ others) = plan ++ others.tasks := by
    rw [← h.all hf]
    exact List.map_append
  refine ⟨?_, fun hl => ?_, List.forall_mem_append.mpr ⟨h.covers, hmore.covers⟩⟩
  · rw [htasks]
    exact (List.prefix_append_right_inj plan).mpr hmore.begun
  · rw [htasks, hmore.all hl]

/-- The segments of a walk in a child are segments in the parent. -/
theorem under {head : Head} {info : Info} {children : List Node} {i : Nat} {child : Node}
    (h : Divides tags child plan finished segments) (hchild : children[i]? = some child) :
    Divides tags (.node head info children) (plan.map (Task.under i)) finished
      (segments.under head i) := by
  refine ⟨?_, fun hf => ?_, fun segment hsegment => ?_⟩
  · rw [Segments.tasks_under]
    exact h.begun.map _
  · rw [Segments.tasks_under, h.all hf]
  · obtain ⟨inside, hinside, rfl⟩ := List.mem_map.mp hsegment
    exact (h.covers inside hinside).under hchild

/-- One task is begun, and its events are covered. -/
theorem single {task : Task} {events : List Event} (h : task.Covers tags t events) :
    Divides tags t [task] finished [(task, events)] :=
  ⟨List.prefix_refl _, fun _ => rfl, by simpa using h⟩

end Divides

namespace Node

variable {tags : Tags} {events : List Event}

/-- What happens at the end of a container is what the steps for its links are about. -/
theorem leads_ending {ns : List Node} {left : Script (List Node)}
    (h : (ending ns).Leads events left) :
    events.map Event.matter <+: (linkSteps ns).filterMap Step.matter? ∧
      ∀ e ∈ events, e.inner = [] := by
  have hnothing : ([] : List Event).map Event.matter <+: (linkSteps ns).filterMap Step.matter? ∧
      ∀ e ∈ ([] : List Event), e.inner = [] := ⟨List.nil_prefix, by simp⟩
  rcases Script.leads_bind h with ⟨⟨_, hmerge⟩, -⟩ | ⟨_, _, merged, rfl, hmerge, h⟩
  · rw [Script.leads_ofExcept hmerge]
    exact hnothing
  obtain ⟨rfl, hmerged⟩ := Script.path_ofExcept hmerge
  obtain rfl := Context.eq_of_merge_ok hmerged
  rw [List.nil_append]
  rcases Script.leads_bind h with ⟨⟨_, htokens⟩, -⟩ | ⟨_, _, items, rfl, htokens, h⟩
  · rw [Script.leads_ofExcept htokens]
    exact hnothing
  obtain ⟨rfl, hitems⟩ := Script.path_ofExcept htokens
  obtain rfl := Context.eq_of_tokenize_ok hitems
  rw [List.nil_append]
  rcases Script.leads_bind h with ⟨⟨_, hsteps⟩, -⟩ | ⟨es, fs, output, rfl, hsteps, hlast⟩
  · exact Script.leads_ofSteps hsteps
  · rw [Script.leads_ofExcept hlast, List.append_nil]
    exact Script.leads_ofSteps (Script.leads_done_iff.mpr hsteps)

/-- What the steps for the templates of a text are about. -/
theorem matters_templateSteps (n : Node) : n.templateSteps.filterMap Step.matter? =
    n.templates.map fun o => .call (.template o.call) := by
  have hcalls := calls_templateSteps n
  have hnotes : ∀ step ∈ n.templateSteps, step.matter? = step.call?.map .call := by
    intro step hstep
    obtain ⟨piece, -, rfl⟩ := List.mem_map.mp hstep
    cases piece <;> rfl
  rw [List.filterMap_congr hnotes]
  have hmap := congrArg (List.map Matter.call) hcalls
  rw [Step.calls, List.map_filterMap] at hmap
  rw [hmap, List.map_map, List.map_map]
  rfl

/-- A child without templates has the tasks of a walk through it. -/
theorem tasksFrom_of_no_templates {child : Node} (h : child.templates = []) (i : Nat)
    (rest : List Node) : tasksFrom tags i (child :: rest) =
      (child.tasks tags).map (Task.under i) ++ tasksFrom tags (i + 1) rest := by
  rw [tasksFrom, h]
  rfl

/-- A child with templates is one task. -/
theorem tasksFrom_of_templates {child : Node} (h : child.templates ≠ []) (i : Nat)
    (rest : List Node) :
    tasksFrom tags i (child :: rest) = .expand [] i :: tasksFrom tags (i + 1) rest := by
  rw [tasksFrom, if_neg (by simpa using h)]
  rfl

mutual

/-- All that happens in a walk through a well-formed tree is divided into segments, one for each task
that is begun. -/
theorem exists_segments_of_leads : ∀ {n : Node}, n.wellFormed = true → ∀ {events : List Event}
    {left : Script Node}, (n.script tags).Leads events left →
    ∃ segments : Segments, events = segments.events ∧
      Divides tags n (n.tasks tags) (∃ m, left = .done m) segments
  | .stray value, hn, _, _, _ => by simp [wellFormed] at hn
  | .node head info children, hn, events, left, h => by
    cases hadmits : tags.admits (.node head info children) with
    | false =>
      rw [script_of_not_admits hn hadmits] at h
      cases h
      refine ⟨[], rfl, .nil fun _ => ?_⟩
      rw [tasks, hadmits]
      rfl
    | true =>
      obtain ⟨-, -, hchildren⟩ := wellFormed_node.mp hn
      have hfrom : ∀ j, children[j]? = children[0 + j]? := fun j => by rw [Nat.zero_add]
      rw [script_of_admits hadmits] at h
      rw [tasks, if_pos hadmits]
      obtain ⟨es, inside, rfl, hinside, hdone⟩ := Script.leads_under h
      -- A walk that has come to the end of the container has done all tasks below.
      have hend {fs gs : List Event} {spliced : List Node} {last : Script (List Node)}
          (hbelow : (scripts tags children).Path fs spliced)
          (hlast : (ending spliced).Leads gs last) :
          ∃ segments : Segments, (fs ++ gs).map (Event.under head) = segments.events ∧
            Divides tags (.node head info children) (tasksFrom tags 0 children ++ [.resolve []])
              (∃ m, left = .done m) segments := by
        obtain ⟨segments, hevents, hdivides⟩ := exists_segments_of_leads_among head info
          hfrom hchildren (Script.leads_done_iff.mpr hbelow)
        obtain ⟨hmatters, hinner⟩ := leads_ending hlast
        have hcovers : (Task.resolve []).Covers tags (.node head info children)
            (gs.map (Event.under head)) :=
          Task.covers_top rfl hinner ⟨fs, spliced, hbelow, hmatters⟩
        refine ⟨_, ?_, hdivides.append ⟨_, rfl⟩ (.single hcovers)⟩
        rw [List.map_append, hevents, Segments.events_append, Segments.events_single]
      rcases Script.leads_bind hinside with ⟨⟨first, hfirst⟩, hleft⟩ | ⟨_, _, given, rfl, hpath, hlast⟩
      · rcases Script.leads_bind hfirst with ⟨⟨front, hfront⟩, -⟩ | ⟨fs, gs, spliced, rfl, hbelow, hend'⟩
        · obtain ⟨segments, hevents, hdivides⟩ := exists_segments_of_leads_among head info
            hfrom hchildren hfront
          refine ⟨segments, hevents, hdivides.breaks (List.prefix_append _ _) ?_⟩
          rintro ⟨m, hm⟩
          exact hleft m (hdone m hm)
        · exact hend hbelow hend'
      · obtain ⟨fs, gs, spliced, rfl, hbelow, hend'⟩ := Script.path_bind.mp hpath
        cases hlast
        rw [List.append_nil]
        exact hend hbelow (Script.leads_done_iff.mpr hend')

/-- All that happens in a walk through well-formed children, from an index on, is divided into segments
of the container. -/
theorem exists_segments_of_leads_among (head : Head) (info : Info) {children : List Node} {i : Nat} :
    ∀ {ns : List Node}, (∀ j, ns[j]? = children[i + j]?) → allWellFormed ns = true →
    ∀ {events : List Event} {left : Script (List Node)}, (scripts tags ns).Leads events left →
    ∃ segments : Segments, events.map (Event.under head) = segments.events ∧
      Divides tags (.node head info children) (tasksFrom tags i ns) (∃ ms, left = .done ms) segments
  | [], _, _, events, left, h => by
    rw [scripts] at h
    cases h
    exact ⟨[], rfl, .nil fun _ => by rw [tasksFrom]⟩
  | child :: rest, hfrom, hns, events, left, h => by
    rw [allWellFormed, Bool.and_eq_true] at hns
    have hchild : children[i]? = some child := (hfrom 0).symm
    have hrest : ∀ j, rest[j]? = children[i + 1 + j]? := fun j => by
      rw [Nat.add_assoc, Nat.add_comm 1 j]
      exact hfrom (j + 1)
    -- After the first child the walk is among the others, or over.
    have hothers {f : List Node → List Node} {fs : List Event} {last : Script (List Node)}
        (h : ((scripts tags rest).bind fun others => .done (f others)).Leads fs last) :
        ∃ segments : Segments, fs.map (Event.under head) = segments.events ∧
          Divides tags (.node head info children) (tasksFrom tags (i + 1) rest)
            (∃ ms, last = .done ms) segments := by
      rcases Script.leads_bind h with ⟨⟨first, hfirst⟩, hleft⟩ | ⟨gs, _, others, rfl, hpath, hdone⟩
      · obtain ⟨segments, hevents, hdivides⟩ := exists_segments_of_leads_among head info
          hrest hns.2 hfirst
        refine ⟨segments, hevents, hdivides.breaks (List.prefix_refl _) ?_⟩
        rintro ⟨m, hm⟩
        exact hleft m hm
      · obtain ⟨segments, hevents, hdivides⟩ := exists_segments_of_leads_among head info
          hrest hns.2 (Script.leads_done_iff.mpr hpath)
        cases hdone
        rw [List.append_nil]
        exact ⟨segments, hevents, hdivides.begun, fun _ => hdivides.all ⟨_, rfl⟩, hdivides.covers⟩
    by_cases ht : child.templates = []
    · rw [scripts_of_no_templates ht] at h
      rw [tasksFrom_of_no_templates ht]
      rcases Script.leads_bind h with ⟨⟨first, hfirst⟩, hleft⟩ | ⟨es, fs, m, rfl, hpath, hlast⟩
      · obtain ⟨segments, rfl, hdivides⟩ := exists_segments_of_leads hns.1 hfirst
        refine ⟨segments.under head i, (segments.events_under head i).symm,
          (hdivides.under hchild).breaks (List.prefix_append _ _) ?_⟩
        rintro ⟨ms, hms⟩
        exact hleft ms hms
      · obtain ⟨segments, rfl, hdivides⟩ :=
          exists_segments_of_leads hns.1 (Script.leads_done_iff.mpr hpath)
        obtain ⟨more, hmore, hlater⟩ := hothers hlast
        refine ⟨segments.under head i ++ more, ?_, (hdivides.under hchild).append ⟨_, rfl⟩ hlater⟩
        rw [List.map_append, hmore, ← segments.events_under head i, Segments.events_append]
    · have hcovers {es : List Event} {left : Script (List Node)}
          (h : (Script.ofSteps child.templateSteps).Leads es left) :
          (Task.expand [] i).Covers tags (.node head info children)
            (es.map (Event.under head)) := by
        obtain ⟨hmatters, hinner⟩ := Script.leads_ofSteps h
        rw [matters_templateSteps] at hmatters
        exact Task.covers_top rfl hinner ⟨child, hchild, hmatters⟩
      rw [scripts_of_templates ht] at h
      rw [tasksFrom_of_templates ht]
      rcases Script.leads_bind h with ⟨⟨first, hfirst⟩, hleft⟩ | ⟨es, fs, nodes, rfl, hpath, hlast⟩
      · refine ⟨[(.expand [] i, events.map (Event.under head))],
          (Segments.events_single _ _).symm, ?_⟩
        have hsingle : Divides tags (.node head info children) [.expand [] i] True
            [(.expand [] i, events.map (Event.under head))] := .single (hcovers hfirst)
        refine hsingle.breaks (List.prefix_append [_] _) ?_
        rintro ⟨ms, hms⟩
        exact hleft ms hms
      · obtain ⟨more, hmore, hlater⟩ := hothers hlast
        refine ⟨(.expand [] i, es.map (Event.under head)) :: more, ?_,
          (Divides.single (hcovers (Script.leads_done_iff.mpr hpath))).append trivial hlater⟩
        rw [List.map_append, hmore, Segments.events_cons]

end

/-! ## Scripts of walks are in containers that fit together -/

/-- The end of a container is in no other containers. -/
theorem regular_ending (ns : List Node) : (ending ns).Regular := by
  unfold ending
  refine (Script.regular_ofExcept _).bind fun merged => ?_
  refine (Script.regular_ofExcept _).bind fun items => ?_
  exact (Script.regular_ofSteps _).bind fun output => Script.regular_ofExcept _

/-- The containers of a walk through a well-formed tree fit together. -/
theorem regular_script {n : Node} (hn : n.wellFormed = true) : (n.script tags).Regular := by
  have hregular : Composes fun _ s => s.Regular :=
    { done := fun _ => trivial
      bind := Script.Regular.bind
      under := Script.Regular.under
      ending := regular_ending
      expansion := fun n => Script.regular_ofSteps n.templateSteps }
  exact hregular.of_script hn

end Node

/-! ## Runs -/

namespace Context

/-- Every run for a well-formed tree follows some events through the script of the tree, and what it
leaves is what these leave. If it comes to its end, they are a path to the tree that it gives. -/
theorem exists_events_of_process (ctx : Context σ) {t : Node} (ht : t.wellFormed = true) (st : State σ) :
    ∃ events left world, (t.script ctx.excluded).Leads events left ∧
      ctx.Acts st.world events world ∧
      (ctx.process t st).state = (fresh st).after events world ∧
      ((ctx.process t st).fault = none →
        left = .done (ctx.process t st).value ∧ ctx.Plays st.world events world) := by
  have hst := isRegular_of_mem_fresh st
  have hvisit := ctx.visit_eq_run ht (fresh st) hst
  obtain ⟨events, left, world, hleads, hacts, hrun⟩ :=
    Script.exists_events_of_run ctx (regular_script ht) (fresh st) hst
  rw [process_of_wellFormed ht]
  refine ⟨events, left, world, hleads, hacts, ?_⟩
  cases hscript : (t.script ctx.excluded).run ctx (fresh st) with
  | ok m st' =>
    rw [hscript] at hvisit hrun
    dsimp only at hvisit hrun
    rw [hvisit]
    exact ⟨hrun.2.2, fun _ => ⟨hrun.1, hrun.2.1⟩⟩
  | error fault st' =>
    rw [hscript] at hvisit hrun
    dsimp only at hvisit hrun
    refine ⟨hvisit.2.trans hrun, fun hnone => ?_⟩
    simp [hvisit.1] at hnone

/-- Every message is about the right place, and no container is left open. Whatever was recorded before
and whichever containers were left open, and whether the run fails or not: all that happens in it is
divided into segments, one for each task of the walk that was begun, and happens in the containers from
the top down to the one that the task is about, whose names are the path of each of its messages. What a
resolver says while it answers, or before it fails to, is among this. The messages at the end are those of
the run, each among those of its level, in order. Each has one line in the log if it weighs enough for the
threshold that the log has then, which is the last that a resolver set, or the one from before the run. The
line has the names of the path joined, or `ROOT` if nothing is left of them. No container is open at the
end, and a message that is made then has the empty path. -/
theorem process_located (ctx : Context σ) {t : Node} (ht : t.wellFormed = true) (st : State σ) :
    ∃ (segments : Segments) (world : σ),
      ctx.Acts st.world segments.events world ∧
      segments.tasks <+: t.tasks ctx.excluded ∧
      ((ctx.process t st).fault = none → segments.tasks = t.tasks ctx.excluded) ∧
      (∀ segment ∈ segments, segment.1.Covers ctx.excluded t segment.2 ∧
        ∀ entry ∈ segment.2.flatMap (Event.entries []),
          entry.message.path = titles (t.downTo segment.1.place) ∧
          entry.line = logLine (placeOf (t.downTo segment.1.place)) entry.text entry.trace) ∧
      (let entries := segments.events.flatMap (Event.entries [])
      let marks := segments.events.flatMap (Event.marks [])
      let weighed := Mark.weighed st.log.threshold marks
      let last := (ctx.process t st).state
      (∀ level, last.messages.ofLevel level =
        (entries.filter (·.level = level)).map Entry.message) ∧
      weighed.map Prod.fst = entries ∧
      last.log.threshold = (Mark.thresholds marks).getLastD st.log.threshold ∧
      last.log.records = st.log.records ++
        (weighed.filter fun x => x.2 ≤ x.1.level.weight).map fun x => (x.1.level, x.1.line)) ∧
      (ctx.process t st).state.stack = [] ∧
      ∀ note entry, note.entry? [] = some entry → entry.message.path = [] ∧
        entry.line = logLine "ROOT" entry.text entry.trace ∧
        Run.record note (ctx.process t st).state =
          .ok () ((ctx.process t st).state.enter [.entry entry]) := by
  -- The run follows some events, and they are divided as the tasks of the walk are.
  obtain ⟨events, left, world, hleads, hacts, hstate, hend⟩ := ctx.exists_events_of_process ht st
  obtain ⟨segments, rfl, hdivides⟩ := exists_segments_of_leads ht hleads
  have hstack : (ctx.process t st).state.stack = [] := by
    rw [hstate]
    rfl
  refine ⟨segments, world, hacts, hdivides.begun, fun hnone => hdivides.all ⟨_, (hend hnone).1⟩,
    fun segment hsegment => ⟨hdivides.covers segment hsegment, fun entry hentry => ?_⟩,
    ⟨fun level => ?_, ?_, ?_, ?_⟩, hstack, fun note entry hentry => ?_⟩
  · -- The path and the line of an entry go by its containers, which are those of its event.
    obtain ⟨e, he, hmem⟩ := List.mem_flatMap.mp hentry
    have hcontainers : entry.stack = t.downTo segment.1.place := by
      rw [Event.stack_of_mem_entries hmem, List.nil_append]
      exact (hdivides.covers segment hsegment).inner e he
    unfold Entry.message Entry.line
    rw [hcontainers]
    exact ⟨rfl, rfl⟩
  · -- The run begins without messages.
    rw [hstate, State.ofLevel_after]
    cases level <;> rfl
  · rw [Mark.map_fst_weighed, Event.entries_flatMap_marks]
  · rw [hstate]
    exact Log.threshold_enter st.log _
  · rw [hstate]
    exact Log.records_enter st.log _
  · -- A message after the run finds no open containers.
    obtain ⟨m, hm, -⟩ := Option.map_eq_some_iff.mp hentry
    have hproper : note.isProper = true := by
      unfold Note.isProper
      rw [hm]
      rfl
    have hregular : ∀ head ∈ (ctx.process t st).state.stack, head.isRegular = true := by
      rw [hstack]
      simp
    have hrecord := Run.record_eq_enter (ctx.process t st).state hregular hproper
    rw [hstack, Aside.mark?, hentry] at hrecord
    unfold Entry.message Entry.line
    rw [(note.level_of_entry? hentry).2]
    exact ⟨rfl, rfl, hrecord⟩

/-- Resolvers that complain about everything. The one for templates lets the log take nothing but
errors from then on, and the one for links fails. -/
def complaining : Context Unit where
  link := .function fun reference world =>
    { asides := [(.note { level := .warning, text := .str "no such file" }, world)]
      outcome := .error (.raised "KeyError" reference.file)
      world := world }
  template := .function fun call world =>
    { asides := [(.note { level := .warning, text := .str "no such template" }, world),
        (.threshold Level.error.weight, world)]
      outcome := .ok (.list [Node.text call.file])
      world := world }

/-- A document with a template, and a link in a paragraph after it. -/
def templateAndLink : Node := .root [.text "::a::", .element "p" [] [.text "[[b]]"]]

/-- A state with a message of an earlier document, in which a container was left open. -/
def leftOver : State Unit where
  messages := { errors := [⟨"old", "", "", []⟩] }
  stack := [.doctype]
  world := ()

/-- A complaint about the template at the top, and then one about the link in the paragraph, at which
the run fails. The log has the first only. -/
theorem process_located_templateAndLink :
    templateAndLink.wellFormed = true ∧
      (complaining.process templateAndLink leftOver).fault.isSome = true ∧
      (∃ (segments : Segments) (world : Unit), complaining.Acts () segments.events world ∧
        segments.tasks <+: [.expand [] 0, .resolve [1], .resolve []] ∧
        ∀ segment ∈ segments, ∀ entry ∈ segment.2.flatMap (Event.entries []),
          entry.message.path = titles (templateAndLink.downTo segment.1.place)) ∧
      titles (templateAndLink.downTo [1]) = [.str "ROOT", .str "p"] ∧
      ((complaining.process templateAndLink leftOver).state.messages.warnings.map Message.text =
        ["no such template", "no such file"]) ∧
      ((complaining.process templateAndLink leftOver).state.log.records =
        [(.warning, "ROOT: no such template")]) ∧
      (complaining.process templateAndLink leftOver).state.stack = [] := by
  have hwell : templateAndLink.wellFormed = true := by decide
  have htasks : templateAndLink.tasks complaining.excluded =
      [.expand [] 0, .resolve [1], .resolve []] := by decide +kernel
  obtain ⟨segments, world, hacts, hbegun, -, hcovers, -, hstack, -⟩ :=
    complaining.process_located hwell leftOver
  rw [htasks] at hbegun
  refine ⟨hwell, by decide +kernel, ⟨segments, world, hacts, hbegun, ?_⟩, rfl, by decide +kernel,
    by decide +kernel, hstack⟩
  intro segment hsegment entry hentry
  exact ((hcovers segment hsegment).2 entry hentry).1

/-- An element with an empty name, in which a link is opened. -/
def nameless : Node := .element "" [] [.text "[["]

/-- The path of a message is not empty if the only container around it has an empty name, but when the
names are joined nothing is left of them. The log shows the path as it shows the empty one then, and not
as the joined names. -/
theorem records_process_nameless :
    nameless.wellFormed = true ∧
      (let last := (echo.process nameless { log := { threshold := 10 }, world := () }).state
      (last.messages.debugs.map fun m => (m.text, (pathTexts m.path).toOption)) =
          [("link not properly closed", some [""])] ∧
        last.log.records = [(.debug, logLine "ROOT" "link not properly closed" "")] ∧
        last.log.records ≠
          [(.debug, logLine ("/".intercalate [""]) "link not properly closed" "")]) := by
  have hrecords : (echo.process nameless { log := { threshold := 10 }, world := () }).state.log.records =
      [(.debug, logLine "ROOT" "link not properly closed" "")] := by decide +kernel
  refine ⟨by decide, by decide +kernel, hrecords, ?_⟩
  rw [hrecords]
  decide

end Context

end Transclude
