import Transclude.Proofs.Walk.Responsive

/-!
# The order of a walk

A walk makes the calls of a container in blocks: those for each of its children, from left to right,
and then those for its links. With resolvers that go by the call, the block of a container in a
larger tree is what a run for this container alone does. `visit_at_place` says so for every
container that a walk goes into.
-/

namespace Transclude

variable {σ : Type}

namespace Node

/-- The containers around a place, from the outside in. -/
def around : Place → Node → List Head
  | i :: p, .node head _ children =>
    head :: match children[i]? with
      | some child => around p child
      | none => []
  | _, _ => []

/-- The containers around a place in a child are the parent and those in the child. -/
theorem around_cons {head : Head} {info : Info} {children : List Node} {i : Nat} {child : Node}
    (hchild : children[i]? = some child) (p : Place) :
    around (i :: p) (.node head info children) = head :: around p child := by
  rw [around, hchild]

end Node

namespace Context

open Node

/-! ## Walks through children -/

section Children

variable {ctx : Context σ} {ns : List Node} {st : State σ}

/-- A walk through well-formed children comes to its end along a path, if all calls are answered. -/
theorem exists_path_visitChildren (hctx : ctx.Answering) (hns : allWellFormed ns = true)
    (hst : ∀ head ∈ st.stack, head.isRegular = true) :
    ∃ events ms world, (scripts ctx.excluded ns).Path events ms ∧
      ctx.Plays st.world events world ∧ (ctx.visitChildren ns st).fault = none ∧
      (ctx.visitChildren ns st).value.spliced = ms ∧
      (ctx.visitChildren ns st).state = st.after events world := by
  have halways : (scripts ctx.excluded ns).Always Fit fun ms => ∀ m ∈ ms, m.isFit = true :=
    always_scripts (fun _ _ h => h) hns
  obtain ⟨events, ms, world, hpath, hplays, -, hproper, -⟩ :=
    Script.exists_path_of_always hctx halways st.world
  have hrun := Script.run_of_path hpath hproper st hst hplays
  have hvisit := ctx.visitChildren_eq_run hns st hst
  rw [hrun] at hvisit
  exact ⟨events, ms, world, hpath, hplays, hvisit⟩

/-- A walk through children goes through the first of them and then through the others. -/
theorem visitChildren_append {ms : List Node} (hns : allWellFormed ns = true)
    (hfault : (ctx.visitChildren ns st).fault = none) :
    (ctx.visitChildren (ns ++ ms) st).fault =
        (ctx.visitChildren ms (ctx.visitChildren ns st).state).fault ∧
      (ctx.visitChildren (ns ++ ms) st).state =
        (ctx.visitChildren ms (ctx.visitChildren ns st).state).state := by
  induction ns generalizing st with
  | nil =>
    have hnil : ctx.visitChildren [] st = ⟨{}, none, st⟩ := by rw [visitChildren]
    rw [List.nil_append, hnil]
    exact ⟨rfl, rfl⟩
  | cons child rest ih =>
    rw [allWellFormed, Bool.and_eq_true] at hns
    rw [List.cons_append]
    by_cases ht : child.templates = []
    · rw [visitChildren_of_no_templates ctx hns.1 ht] at hfault ⊢
      rw [visitChildren_of_no_templates ctx hns.1 ht]
      cases hfirst : (ctx.visit child st).fault with
      | some fault => simp [hfirst] at hfault
      | none =>
        simp only [hfirst] at hfault ⊢
        exact ih hns.2 hfault
    · rw [visitChildren_of_templates ctx hns.1 ht] at hfault ⊢
      rw [visitChildren_of_templates ctx hns.1 ht]
      cases hrun : ctx.perform child.templateSteps st with
      | error fault st₁ => simp [hrun] at hfault
      | ok nodes st₁ =>
        simp only [hrun] at hfault ⊢
        exact ih hns.2 hfault

/-- The calls that were made before a walk come before those that it makes. -/
theorem calls_visitChildren (hctx : ctx.Answering) (hns : allWellFormed ns = true)
    (hst : ∀ head ∈ st.stack, head.isRegular = true) :
    st.calls <+: (ctx.visitChildren ns st).state.calls := by
  obtain ⟨events, ms, world, -, -, -, -, hstate⟩ := exists_path_visitChildren hctx hns hst
  rw [hstate]
  exact List.prefix_append _ _

end Children

/-! ## Coming to a place -/

/-- The state in which a walk comes to a place. -/
def stateAt (ctx : Context σ) : Place → Node → State σ → State σ
  | i :: p, .node head _ children, st =>
    match children[i]? with
    | some child => ctx.stateAt p child (ctx.visitChildren (children.take i) (st.push head)).state
    | none => st
  | _, _, st => st

/-- A walk comes to a place in a child after the children before it. -/
theorem stateAt_cons {ctx : Context σ} {head : Head} {info : Info} {children : List Node} {i : Nat}
    {child : Node} (hchild : children[i]? = some child) (p : Place) (st : State σ) :
    ctx.stateAt (i :: p) (.node head info children) st =
      ctx.stateAt p child (ctx.visitChildren (children.take i) (st.push head)).state := by
  rw [stateAt, hchild]

section Place

variable {ctx : Context σ} {n child : Node} {head : Head} {info : Info} {children : List Node}
  {st : State σ} {i : Nat}

/-- What a walk through a container calls for, it does after the calls of its children. -/
theorem calls_visit_of_admits (hctx : ctx.Answering) (hr : head.isRegular = true)
    (hchildren : allWellFormed children = true)
    (hadmits : ctx.excluded.admits (.node head info children) = true)
    (hst : ∀ head ∈ st.stack, head.isRegular = true) :
    (ctx.visitChildren children (st.push head)).state.calls <+:
      (ctx.visit (.node head info children) st).state.calls := by
  have hpush := isRegular_of_mem_push hr hst
  obtain ⟨events, ms, world, -, -, hfault, -, hstate⟩ :=
    exists_path_visitChildren hctx hchildren hpush
  have hstack : (ctx.visitChildren children (st.push head)).state.stack = (st.push head).stack := by
    rw [hstate]
    rfl
  rw [visit_of_admits hr hadmits]
  simp only [hfault]
  cases hrun : ctx.finish (ctx.visitChildren children (st.push head)).value.spliced
      (ctx.visitChildren children (st.push head)).state with
  | ok given st₁ =>
    obtain ⟨talk, htalked, -, -⟩ := finish_ok (hstack ▸ hpush) hrun
    exact ⟨_, htalked.calls.symm⟩
  | error fault st₁ =>
    obtain ⟨answers, hbroke⟩ := finish_error (hstack ▸ hpush) hrun
    obtain ⟨calls, hcalls, -⟩ := hbroke.calls
    exact ⟨_, hcalls.symm⟩

/-- What a walk through children calls for, it does after the calls of a child among them. -/
theorem calls_visit_child (hctx : ctx.Answering) (hns : allWellFormed children = true)
    (hchild : children[i]? = some child) (ht : child.templates = [])
    (hst : ∀ head ∈ st.stack, head.isRegular = true) :
    (ctx.visit child (ctx.visitChildren (children.take i) st).state).state.calls <+:
      (ctx.visitChildren children st).state.calls := by
  obtain ⟨hi, rfl⟩ := List.getElem?_eq_some_iff.mp hchild
  have hsplit : children = children.take i ++ children[i] :: children.drop (i + 1) := by
    rw [← List.drop_eq_getElem_cons, List.take_append_drop]
  have hall := allWellFormed_iff.mp hns
  have hfront : allWellFormed (children.take i) = true :=
    allWellFormed_iff.mpr fun m hm => hall m (List.mem_of_mem_take hm)
  have hback : allWellFormed (children.drop (i + 1)) = true :=
    allWellFormed_iff.mpr fun m hm => hall m (List.mem_of_mem_drop hm)
  have hwell := hall children[i] (List.getElem_mem hi)
  obtain ⟨events, ms, world, -, -, hfault, -, hstate⟩ :=
    exists_path_visitChildren hctx hfront hst
  have hmid : ∀ head ∈ (ctx.visitChildren (children.take i) st).state.stack,
      head.isRegular = true := by
    rw [hstate]
    exact hst
  obtain ⟨es, m, next, hfollows⟩ := exists_follows hctx hwell hmid
  have hlater : ∀ head ∈ (ctx.visit children[i]
      (ctx.visitChildren (children.take i) st).state).state.stack, head.isRegular = true := by
    rw [hfollows.visit]
    exact hmid
  -- The walk goes through the children before this one, through this one, and through the others.
  have hwalk : (ctx.visitChildren children st).state =
      (ctx.visitChildren (children.drop (i + 1)) (ctx.visit children[i]
        (ctx.visitChildren (children.take i) st).state).state).state := by
    rw [congrArg (ctx.visitChildren · st) hsplit, (visitChildren_append hfront hfault).2,
      visitChildren_of_no_templates ctx hwell ht, hfollows.visit]
  rw [hwalk]
  exact calls_visitChildren hctx hback hlater

/-- A walk goes through every container that it goes into, from the state in which it comes to its
place. -/
theorem exists_at?_of_reached (hctx : ctx.Answering) {p : Place} (hn : n.wellFormed = true)
    (hst : ∀ head ∈ st.stack, head.isRegular = true) (hp : p ∈ n.reached ctx.excluded) :
    ∃ c, at? p n = some c ∧ c.wellFormed = true ∧ ctx.excluded.admits c = true ∧
      (ctx.stateAt p n st).stack = st.stack ++ around p n ∧
      (∀ head ∈ (ctx.stateAt p n st).stack, head.isRegular = true) ∧
      (ctx.visit c (ctx.stateAt p n st)).state.calls <+: (ctx.visit n st).state.calls := by
  induction p generalizing n st with
  | nil =>
    obtain ⟨hadmits, -⟩ := mem_reached.mp hp
    have hstate : ctx.stateAt [] n st = st := by
      cases n <;> rfl
    have haround : around [] n = [] := by
      cases n <;> rfl
    rw [hstate, haround, List.append_nil]
    exact ⟨n, rfl, hn, hadmits, rfl, hst, List.prefix_refl _⟩
  | cons i p ih =>
    obtain ⟨hadmits, hp⟩ := mem_reached.mp hp
    obtain ⟨j, child, q, hq, hchild, hreached⟩ := hp.resolve_left (by simp)
    obtain ⟨rfl, rfl⟩ := List.cons_eq_cons.mp hq
    obtain ⟨head, info, children, rfl, hr⟩ := exists_of_wellFormed hn
    obtain ⟨-, -, hchildren⟩ := wellFormed_node.mp hn
    change children[i]? = some child at hchild
    have hpush := isRegular_of_mem_push hr hst
    have hfront : allWellFormed (children.take i) = true :=
      allWellFormed_iff.mpr fun m hm =>
        allWellFormed_iff.mp hchildren m (List.mem_of_mem_take hm)
    obtain ⟨events, ms, world, -, -, -, -, hstate⟩ :=
      exists_path_visitChildren hctx hfront hpush
    have hwell : child.wellFormed = true :=
      allWellFormed_iff.mp hchildren child (List.mem_of_getElem? hchild)
    -- A walk goes into no text, so the child has no templates.
    have ht : child.templates = [] := by
      by_contra h
      obtain ⟨s, hs⟩ := text?_of_templates h
      rw [reached_of_not_admits (admits_of_text? hs _)] at hreached
      simp at hreached
    have hstack : (ctx.visitChildren (children.take i) (st.push head)).state.stack =
        st.stack ++ [head] := by
      rw [hstate]
      rfl
    have hbelow : ∀ h ∈ (ctx.visitChildren (children.take i) (st.push head)).state.stack,
        h.isRegular = true := by
      rw [hstack]
      exact hpush
    obtain ⟨c, hc, hcwell, hcadmits, hcstack, hcregular, hcalls⟩ := ih hwell hbelow hreached
    rw [stateAt_cons hchild, around_cons hchild]
    refine ⟨c, at?_cons.mpr ⟨child, hchild, hc⟩, hcwell, hcadmits, ?_, hcregular, ?_⟩
    · rw [hcstack, hstack, List.append_assoc]
      rfl
    · exact (hcalls.trans (calls_visit_child hctx hchildren hchild ht hpush)).trans
        (calls_visit_of_admits hctx hr hchildren hadmits hst)

end Place

/-! ## Blocks -/

/-- The calls that a run for a tree makes. -/
def callsOf (ctx : Context σ) (st : State σ) (n : Node) : List Call :=
  (ctx.process n st).state.calls.drop st.calls.length

/-- The calls for a child: those for the templates of a text, and those of a run for it if it is no
text. -/
def block (ctx : Context σ) (st : State σ) (child : Node) : List Call :=
  match child.text? with
  | some s => (Template.scan s).map fun o => .template o.call
  | none => ctx.callsOf st child

/-- What a child becomes before the links around it are resolved: its templates are expanded if it
has any, and otherwise it becomes the result of a run for it. -/
def became (ctx : Context σ) (st : State σ) (child : Node) : List Node :=
  if child.templates.isEmpty then [(ctx.process child st).value]
  else Step.outputs child.templateSteps (ctx.answers (Step.calls child.templateSteps) st.world)

section Blocks

variable {ctx : Context σ} {n : Node} {events : List Event} {world after : σ}

/-- With resolvers that go by the call, a run for a tree alone goes along the same path as a walk
through it that is part of a larger one, but for what the resolvers do besides. -/
theorem process_eq_of_path (hctx : ctx.Answering) (hpure : ctx.AnswersByCall)
    (hn : n.wellFormed = true) {m : Node} (hpath : (n.script ctx.excluded).Path events m)
    (hplays : ctx.Plays world events after) (st : State σ) :
    ∃ alone last, ctx.process n st = ⟨m, none, (fresh st).after alone last⟩ ∧
      Event.talk alone = Event.talk events ∧ (ctx.SpeaksByCall → ∀ outer,
        alone.flatMap (Event.entries outer) = events.flatMap (Event.entries outer)) := by
  obtain ⟨alone, m', last, hfollows⟩ := exists_follows hctx hn (isRegular_of_mem_fresh st)
  obtain ⟨rfl, htalk, hentries⟩ :=
    Script.path_unique hpure hfollows.path hfollows.plays hpath hplays
  exact ⟨alone, last, by rw [process_of_wellFormed hn, hfollows.visit], htalk, hentries⟩

/-- The calls of a run for a tree are those on the path of any walk through it. -/
theorem callsOf_eq_of_path (hctx : ctx.Answering) (hpure : ctx.AnswersByCall)
    (hn : n.wellFormed = true) {m : Node} (hpath : (n.script ctx.excluded).Path events m)
    (hplays : ctx.Plays world events after) (st : State σ) :
    ctx.callsOf st n = (Event.talk events).map Prod.fst := by
  obtain ⟨alone, last, hprocess, htalk, -⟩ := process_eq_of_path hctx hpure hn hpath hplays st
  rw [callsOf, hprocess, ← htalk]
  exact List.drop_left

/-- A run for a tree that a walk does not go into makes no call, and leaves the tree as it is. -/
theorem callsOf_of_not_admits (hn : n.wellFormed = true) (h : ctx.excluded.admits n = false)
    (st : State σ) : ctx.callsOf st n = [] ∧ (ctx.process n st).value = n := by
  rw [callsOf, process_of_wellFormed hn, visit_of_not_admits hn h]
  exact ⟨List.drop_length, rfl⟩

/-- A walk through children makes the calls for each of them in turn, and each becomes what it
becomes in a run for it alone. -/
theorem path_scripts_eq (hctx : ctx.Answering) (hpure : ctx.AnswersByCall) (st : State σ)
    {ns ms : List Node} (hns : allWellFormed ns = true)
    (hpath : (scripts ctx.excluded ns).Path events ms) (hplays : ctx.Plays world events after) :
    (Event.talk events).map Prod.fst = ns.flatMap (ctx.block st) ∧
      ms = ns.flatMap (ctx.became st) := by
  induction ns generalizing events ms world with
  | nil =>
    rw [scripts] at hpath
    obtain ⟨rfl, rfl⟩ := Script.path_done hpath
    exact ⟨rfl, rfl⟩
  | cons child rest ih =>
    rw [allWellFormed, Bool.and_eq_true] at hns
    rw [List.flatMap_cons, List.flatMap_cons]
    by_cases ht : child.templates = []
    · obtain ⟨es, fs, m, others, rfl, hfirst, hothers, rfl⟩ := path_scripts_of_no_templates ht hpath
      obtain ⟨next, hplays, hlater⟩ := plays_append.mp hplays
      obtain ⟨hcalls, rfl⟩ := ih hns.2 hothers hlater
      obtain ⟨alone, last, hprocess, -, -⟩ := process_eq_of_path hctx hpure hns.1 hfirst hplays st
      have hbecame : ctx.became st child = [m] := by
        rw [became, ht, hprocess]
        rfl
      have hblock : ctx.block st child = (Event.talk es).map Prod.fst := by
        unfold block
        cases htext : child.text? with
        | none => exact callsOf_eq_of_path hctx hpure hns.1 hfirst hplays st
        | some s =>
          -- A walk does not go into a text, and this one has no templates.
          rw [script_of_not_admits hns.1 (admits_of_text? htext _)] at hfirst
          obtain ⟨rfl, -⟩ := Script.path_done hfirst
          have hscan : Template.scan s = [] := by simpa [templates, htext] using ht
          dsimp only
          rw [hscan]
          rfl
      rw [Event.talk_append, List.map_append, hcalls, hblock, hbecame]
      exact ⟨rfl, rfl⟩
    · obtain ⟨es, fs, nodes, others, rfl, hsteps, hothers, rfl⟩ := path_scripts_of_templates ht hpath
      obtain ⟨next, hplays, hlater⟩ := plays_append.mp hplays
      obtain ⟨hcalls, rfl⟩ := ih hns.2 hothers hlater
      obtain ⟨hown, -, rfl⟩ := path_templateSteps hsteps
      obtain ⟨s, htext⟩ := text?_of_templates ht
      have hanswers := answers_of_hears hplays.hears []
      rw [List.append_nil, hown, ← calls_templateSteps, hpure.answers_eq _ world st.world] at hanswers
      have hbecame : ctx.became st child =
          Step.outputs child.templateSteps ((Event.talk es).map Prod.snd) := by
        rw [became, if_neg (by simpa using ht), hanswers, answers, List.append_nil]
      have hblock : ctx.block st child = (Event.talk es).map Prod.fst := by
        rw [block, hown, List.map_map, templates, htext]
        rfl
      rw [Event.talk_append, List.map_append, hcalls, hblock, hbecame]
      exact ⟨rfl, rfl⟩

/-- A walk through a container makes the calls for each of its children in turn, and then those for
the links among what these have become. -/
theorem calls_of_path_node (hctx : ctx.Answering) (hpure : ctx.AnswersByCall) (st : State σ)
    {head : Head} {info : Info} {children : List Node} {m : Node}
    (hadmits : ctx.excluded.admits (.node head info children) = true)
    (hchildren : allWellFormed children = true)
    (hpath : ((Node.node head info children).script ctx.excluded).Path events m)
    (hplays : ctx.Plays world events after) :
    (Event.talk events).map Prod.fst = children.flatMap (ctx.block st) ++
      (Link.references (children.flatMap (ctx.became st))).map .link := by
  obtain ⟨es, fs, spliced, given, rfl, hbelow, hend, -⟩ := path_script_of_admits hadmits hpath
  obtain ⟨next, hplays, -⟩ := plays_append.mp (plays_of_map_under hplays)
  obtain ⟨hcalls, rfl⟩ := path_scripts_eq hctx hpure st hchildren hbelow hplays
  obtain ⟨hlinks, hreferences, -⟩ := path_ending hend
  rw [Event.talk_map_under, Event.talk_append, List.map_append, hcalls, hlinks, hreferences]

end Blocks

/-- The messages of events in containers are those of events alone that have the same entries, with
the path of the containers in front. -/
theorem ofLevel_after_within (st alone : State σ) {events apart : List Event}
    (hentries : apart.flatMap (Event.entries []) = events.flatMap (Event.entries []))
    (world world' : σ) (level : Level) :
    (st.after events world).messages.ofLevel level = st.messages.ofLevel level ++
      (((fresh alone).after apart world').messages.ofLevel level).map
        (Message.within (titles st.stack)) := by
  have hwithin : events.flatMap (Event.entries st.stack) =
      (apart.flatMap (Event.entries [])).map (Entry.within st.stack) := by
    rw [hentries, List.map_flatMap]
    exact congrArg (events.flatMap ·) (funext (Event.entries_eq_map st.stack))
  have hfresh : ((fresh alone).after apart world').messages.ofLevel level =
      ((apart.flatMap (Event.entries [])).filter (·.level = level)).map Entry.message := by
    rw [State.ofLevel_after]
    cases level <;> rfl
  rw [State.ofLevel_after, hwithin, hfresh, List.filter_map, List.map_map, List.map_map]
  congr 2
  funext e
  exact Entry.message_within st.stack e

/-- The resolvers of `echo` go by the call. -/
theorem answersByCall_echo : echo.AnswersByCall := by
  intro call world other
  rfl

/-- A document with templates and links in a list of two items, and around it. -/
def listOfCalls : Node :=
  .root [.text "::a:: [[", .element "ul" [] [.element "li" [] [.text "[[b]]"],
    .element "li" [] [.text "[[#c]] ::d|e::"]], .text "[[f]]"]

end Context

end Transclude
