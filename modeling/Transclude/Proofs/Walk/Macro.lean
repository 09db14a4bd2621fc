import Transclude.Proofs.Walk.ByValue
import Transclude.Proofs.Walk.Responsive
import Transclude.Proofs.Walk.Substitute

/-!
# Templates as macros

A template resolver that answers each call with one text, whose value goes by the call, works like a
macro processor: its texts might as well have been written in the document before links are recognised.
`process_substituted` says that a document and the one with the templates written out are processed
alike, but for what the template resolver says and what its texts carry. So a delimiter may be written
in part, and in part come from a template.
-/

namespace Transclude

variable {σ τ α : Type}

/-! ## Runs with the templates written out -/

/-- Whether an event is a call for a template. -/
def Event.isTemplate : Event → Bool
  | .asked _ (.template _) _ _ => true
  | _ => false

/-- Whether a call is one for a link. -/
def Call.isLink : Call → Bool
  | .link _ => true
  | .template _ => false

namespace Event

/-- Without the template calls, the calls of some events are those for links. -/
theorem map_fst_talk_filter (events : List Event) :
    (talk (events.filter fun e => !e.isTemplate)).map Prod.fst =
      ((talk events).map Prod.fst).filter Call.isLink := by
  induction events with
  | nil => rfl
  | cons e rest ih =>
    cases e with
    | told inner note => exact ih
    | asked inner call asides answer =>
      cases call with
      | template call => exact ih
      | link reference => exact congrArg (Call.link reference :: ·) ih

end Event

namespace Context

/-- The resolvers of `ctx` are the link resolver of `plain` and besides a template resolver that answers
each call with one text, whose value goes by the call. The link resolver does the same for both, whether
templates are called in between or not, and what `f` takes away from nodes makes no difference to it:
then `alike` relates its states. -/
structure Inlines (f : Node → Node) (value : TemplateCall → String) (alike : σ → τ → Prop)
    (ctx : Context σ) (plain : Context τ) : Prop where
  /-- The same elements are excluded. -/
  excluded : ctx.excluded = plain.excluded
  /-- Links have the same answers, and the states after them are alike. -/
  answer : ∀ {reference reference' world world'}, alike world world' →
    reference.mapNodes f = reference'.mapNodes f →
    Option.Rel (fun a a' => a.1.map f = a'.1.map f ∧ alike a.2 a'.2)
      (ctx.answer? (.link reference) world) (plain.answer? (.link reference') world')
  /-- The same is done besides about links. -/
  asides : ∀ {reference reference' world world'}, alike world world' →
    reference.mapNodes f = reference'.mapNodes f →
    ctx.asidesOf (.link reference) world = plain.asidesOf (.link reference') world'
  /-- A template call is answered with one text that has the value of the call, and that changes
  nothing for links. -/
  text : ∀ call world, ∃ n next, ctx.answer? (.template call) world = some ([n], next) ∧
    n.text? = some (value call) ∧ f n = f (Node.text (value call)) ∧
    ∀ world', alike world world' → alike next world'

section Runs

variable {f : Node → Node} {value : TemplateCall → String} {alike : σ → τ → Prop}
  {ctx : Context σ} {plain : Context τ} {s s' : Script α} {R : α → α → Prop}
  {events : List Event} {a : α} {world after : σ}

/-- The link resolver answers alike without the calls for templates. -/
theorem Inlines.exists_answer (hctx : ctx.Inlines f value alike plain) {reference : LinkReference}
    {reference' : LinkReference} {answer : List Node} {world' : τ} (halike : alike world world')
    (hsame : reference.mapNodes f = reference'.mapNodes f)
    (h : ctx.answer? (.link reference) world = some (answer, after)) :
    ∃ answer' after', plain.answer? (.link reference') world' = some (answer', after') ∧
      answer.map f = answer'.map f ∧ alike after after' := by
  have hrel := hctx.answer halike hsame
  rw [h] at hrel
  cases hother : plain.answer? (.link reference') world' with
  | none =>
    rw [hother] at hrel
    cases hrel
  | some given =>
    rw [hother] at hrel
    cases hrel with
    | some hgiven => exact ⟨given.1, given.2, rfl, hgiven⟩

/-- Beside a path that `ctx` takes through a script there is one that `plain` takes through an alike
script with the templates answered. What happens on it is the same by `f`, without the calls for
templates. -/
theorem Inlines.exists_path (hctx : ctx.Inlines f value alike plain) (h : s.Path events a)
    (hs : Script.AlikeBy f R s s') (hplays : ctx.Plays world events after) {world' : τ}
    (halike : alike world world') :
    ∃ events' a' after', (s'.inlined value).Path events' a' ∧ plain.Plays world' events' after' ∧
      R a a' ∧ alike after after' ∧
      events'.map (Event.mapNodes f) =
        (events.filter fun e => !e.isTemplate).map (Event.mapNodes f) := by
  -- The induction is on the path. The states stay alike after each event.
  induction h generalizing s' world world' with
  | done a =>
    cases hs with
    | done hR =>
      cases hplays
      exact ⟨[], _, world', .done _, .nil world', hR, halike, rfl⟩
  | @tell inner note next events a _ ih =>
    cases hs with
    | tell hnext =>
      cases hplays with
      | told _ _ hplays =>
        obtain ⟨events', a', after', hpath', hplays', hR, hafter, hevents⟩ :=
          ih hnext hplays halike
        refine ⟨.told inner note :: events', a', after', hpath'.tell, hplays'.told inner note, hR,
          hafter, ?_⟩
        rw [List.filter_cons_of_pos rfl, List.map_cons, List.map_cons, hevents]
  | @ask inner call next events a asides answer _ ih =>
    cases hs with
    | ask hcall hnext =>
      cases hplays with
      | @asked _ middle _ _ _ _ _ hanswer hplays =>
        cases call with
        | template call =>
          -- The other script goes on at once, with the value of the call.
          obtain rfl := Call.eq_template_of_mapNodes hcall
          obtain ⟨n, later, hvalue, -, hn, hlater⟩ := hctx.text call world
          obtain ⟨rfl, rfl⟩ : answer = [n] ∧ middle = later := by
            simpa using hanswer.symm.trans hvalue
          have hgiven : [n].map f = [Node.text (value call)].map f :=
            congrArg (fun m => [m]) hn
          exact ih (hnext _ _ hgiven) hplays (hlater world' halike)
        | link reference =>
          -- The other script asks for the link as well, and is answered alike.
          obtain ⟨reference', rfl, hsame⟩ := Call.exists_link_of_mapNodes hcall
          obtain ⟨answer', middle', hanswer', hgiven, hmiddle⟩ :=
            hctx.exists_answer halike hsame hanswer
          obtain ⟨events', a', after', hpath', hplays', hR, hafter, hevents⟩ :=
            ih (hnext answer answer' hgiven) hplays hmiddle
          refine ⟨_, a', after', hpath'.ask _, hplays'.asked inner hanswer', hR, hafter, ?_⟩
          rw [List.filter_cons_of_pos rfl, List.map_cons, List.map_cons, hevents, Event.mapNodes,
            Event.mapNodes, hcall, hgiven, hctx.asides halike hsame]

/-- The resolvers of `ctx` answer all fit calls if the link resolver does. -/
theorem Inlines.responsive (hctx : ctx.Inlines f value alike plain)
    (hlinks : ∀ reference, (Call.link reference).IsFit → ∀ world, ∃ nodes next,
      ctx.answer? (.link reference) world = some (nodes, next) ∧ Fit (.link reference) nodes) :
    ctx.Responsive := by
  intro call hcall world
  cases call with
  | link reference => exact hlinks reference hcall world
  | template call =>
    obtain ⟨n, next, hanswer, htext, -⟩ := hctx.text call world
    refine ⟨[n], next, hanswer, fun m hm => ?_⟩
    obtain rfl := List.mem_singleton.mp hm
    exact Node.isFit_iff.mpr ⟨Node.isSound_of_text? htext, Node.displayable_of_text? htext⟩

/-- If nothing is said about templates, nothing is lost without the calls for these. -/
theorem Plays.entries_filter (hsilent : ∀ call world, ctx.notesOf (.template call) world = [])
    (h : ctx.Plays world events after) (outer : List Head) :
    (events.filter fun e => !e.isTemplate).flatMap (Event.entries outer) =
      events.flatMap (Event.entries outer) := by
  induction h with
  | nil world => rfl
  | told inner note _ ih =>
    rw [List.filter_cons_of_pos rfl, List.flatMap_cons, List.flatMap_cons, ih]
  | @asked world next after events call answer inner hanswer _ ih =>
    cases call with
    | link reference =>
      rw [List.filter_cons_of_pos rfl, List.flatMap_cons, List.flatMap_cons, ih]
    | template call =>
      have hnothing : Event.entries outer (.asked inner (.template call)
          (ctx.asidesOf (.template call) world) answer) = [] := by
        rw [Event.entries, show Aside.notes _ = [] from hsilent call world]
        rfl
      rw [List.filter_cons_of_neg (by simp [Event.isTemplate]), ih, List.flatMap_cons, hnothing,
        List.nil_append]

/-- Templates are textual macros. A well-formed document is processed with a link resolver that
answers, and a template resolver that answers each call with one text, whose value goes by the call;
and the document in which every template in a container that is reached is replaced by its value is
processed with the same link resolver and no matter what template resolver. Either the texts for
templates carry nothing but their values, or the link resolver goes by the file, the id and the nodes
of a reference up to what texts carry. If no text that is reached has a template then, both runs come
to an end and give the same tree, up to what texts carry in the second case. The same happens in both,
but for the calls for templates: they make the same calls for links, the second makes no other, and its
messages are those of the first without those that the template resolver makes. -/
theorem process_substituted {f : Node → Node} (hf : f = id ∨ f = Node.plainTexts)
    {value : TemplateCall → String} {alike : σ → τ → Prop} {ctx : Context σ} {plain : Context τ}
    (hctx : ctx.Inlines f value alike plain)
    (hlinks : ∀ reference, (Call.link reference).IsFit → ∀ world, ∃ nodes next,
      ctx.answer? (.link reference) world = some (nodes, next) ∧ Fit (.link reference) nodes)
    {t : Node} (ht : t.wellFormed = true)
    (hfree : ∀ p n, (t.substituted value ctx.excluded).IsReached ctx.excluded p →
      Node.at? p (t.substituted value ctx.excluded) = some n → ¬ Node.HasTemplate n.children)
    (st : State σ) (other : State τ) (halike : alike st.world other.world) :
    ∃ events events' world world',
      let first := ctx.process t st
      let second := plain.process (t.substituted value ctx.excluded) other
      first.fault = none ∧ second.fault = none ∧ f second.value = f first.value ∧
      first.state = (fresh st).after events world ∧ ctx.Plays st.world events world ∧
      second.state = (fresh other).after events' world' ∧ plain.Plays other.world events' world' ∧
      alike world world' ∧
      events'.map (Event.mapNodes f) =
        (events.filter fun e => !e.isTemplate).map (Event.mapNodes f) ∧
      first.state.calls = st.calls ++ (Event.talk events).map Prod.fst ∧
      second.state.calls = other.calls ++ (Event.talk events').map Prod.fst ∧
      ((Event.talk events').map Prod.fst).map (Call.mapNodes f) =
        (((Event.talk events).map Prod.fst).filter Call.isLink).map (Call.mapNodes f) ∧
      first.state.messages = Messages.enter {} (events.flatMap (Event.entries [])) ∧
      second.state.messages = Messages.enter {}
        ((events.filter fun e => !e.isTemplate).flatMap (Event.entries [])) ∧
      ((∀ call world, ctx.notesOf (.template call) world = []) →
        second.state.messages = first.state.messages) := by
  have hmatter : Node.Immaterial f := by
    rcases hf with rfl | rfl
    · exact Node.immaterial_id
    · exact Node.immaterial_plainTexts
  have hwell := Node.wellFormed_substituted value ctx.excluded ht
  have hscript := Node.inlined_script ht ((Node.templateFree_iff hwell).mpr hfree)
  obtain ⟨events, m, world, hfollows, -⟩ := exists_follows_of_responsive
    (hctx.responsive hlinks) ht (isRegular_of_mem_fresh st)
  -- Beside the path of the first run there is one through the script of the other document.
  obtain ⟨events', m', world', hpath, hplays, hvalue, hworld, hevents⟩ :=
    hctx.exists_path hfollows.path (hmatter.alikeBy_script ht) hfollows.plays halike
  have hproper : ∀ e ∈ events', e.isProper = true :=
    Event.isProper_of_map_mapNodes hevents fun e he =>
      hfollows.proper e (List.mem_of_mem_filter he)
  rw [hscript, hctx.excluded] at hpath
  rw [hctx.excluded] at hwell ⊢
  have hvisit : plain.visit (t.substituted value plain.excluded) (fresh other) =
      ⟨m', none, (fresh other).after events' world'⟩ :=
    visit_of_path hwell hpath hproper (isRegular_of_mem_fresh other) hplays
  have hmessages {υ : Type} (st : State υ) (events : List Event) (world : υ) :
      ((fresh st).after events world).messages =
        Messages.enter {} (events.flatMap (Event.entries [])) := by
    rw [← Event.entries_flatMap_marks]
    rfl
  have hsaid : ((fresh other).after events' world').messages = Messages.enter {}
      ((events.filter fun e => !e.isTemplate).flatMap (Event.entries [])) := by
    rw [hmessages, Event.entries_eq_of_map_mapNodes hevents]
  rw [process_of_wellFormed ht, process_of_wellFormed hwell, hfollows.visit, hvisit]
  refine ⟨events, events', world, world', rfl, rfl, hvalue.symm, rfl, hfollows.plays, rfl, hplays,
    hworld, hevents, rfl, rfl, ?_, hmessages st events world, hsaid, fun hsilent => ?_⟩
  · rw [Event.map_fst_talk_of_map_mapNodes hevents, Event.map_fst_talk_filter]
  · have hentries := hfollows.plays.entries_filter hsilent []
    calc ((fresh other).after events' world').messages
        = Messages.enter {} ((events.filter fun e => !e.isTemplate).flatMap (Event.entries [])) :=
          hsaid
      _ = Messages.enter {} (events.flatMap (Event.entries [])) := by rw [hentries]
      _ = ((fresh st).after events world).messages := (hmessages st events world).symm

end Runs

/-- What the templates of a sample stand for: a bracket, or their own name. -/
def bracketOr (call : TemplateCall) : String := if call.file = "open" then "[" else call.file

/-- A resolver for links that answers with the name of the file, and none for templates. -/
def linksOnly : Context Unit where
  link := .function fun reference world =>
    { outcome := .ok (.list [Node.text reference.file]), world := world }
  template := .value .null

/-- The same resolver for links, and one that answers templates with what they stand for. It counts its
calls, and its texts carry the count. -/
def counting : Context Nat where
  link := .function fun reference world =>
    { outcome := .ok (.list [Node.text reference.file]), world := world }
  template := .function fun call world =>
    { outcome := .ok (.list [.node (.text (bracketOr call)) { data := .int world } []])
      world := world + 1 }

/-- A document in which the second bracket of a link comes from a template. -/
def halfDelimiter : Node :=
  .root [.text "[::open::a|b ", .element "em" [] [.text "::c|x::"], .text " ::d::]] ]]"]

/-- A delimiter may be written in part, and in part come from a template. -/
theorem process_substituted_halfDelimiter :
    counting.Inlines Node.plainTexts bracketOr (fun _ _ => True) linksOnly ∧
      halfDelimiter.wellFormed = true ∧
      (linksOnly.process (halfDelimiter.substituted bracketOr counting.excluded)
        { world := () }).value.plainTexts =
          (counting.process halfDelimiter { world := 0 }).value.plainTexts ∧
      (linksOnly.process (halfDelimiter.substituted bracketOr counting.excluded)
        { world := () }).state.messages =
          (counting.process halfDelimiter { world := 0 }).state.messages ∧
      (linksOnly.process (halfDelimiter.substituted bracketOr counting.excluded)
        { world := () }).state.calls.length = 1 := by
  have hinlines : counting.Inlines Node.plainTexts bracketOr (fun _ _ => True) linksOnly := by
    refine ⟨rfl, fun _ hsame => ?_, fun _ _ => rfl, fun call world => ?_⟩
    · have hfile := congrArg LinkReference.file hsame
      refine .some ⟨?_, trivial⟩
      exact congrArg (fun file => [Node.text file].map Node.plainTexts) hfile
    · exact ⟨_, world + 1, rfl, rfl, Node.plainTexts_of_text? rfl, fun _ _ => trivial⟩
  have hlinks : ∀ reference, (Call.link reference).IsFit → ∀ world, ∃ nodes next,
      counting.answer? (.link reference) world = some (nodes, next) ∧
        Fit (.link reference) nodes := by
    intro reference _ world
    refine ⟨[Node.text reference.file], world, rfl, fun n hn => ?_⟩
    exact List.mem_singleton.mp hn ▸ Node.isFit_text _
  have hwell : halfDelimiter.wellFormed = true := by decide
  have hsubstituted := Node.wellFormed_substituted bracketOr counting.excluded hwell
  have hfree := (Node.templateFree_iff hsubstituted).mp
    (by decide +kernel : (halfDelimiter.substituted bracketOr counting.excluded).TemplateFree
      counting.excluded)
  obtain ⟨events, events', world, world', -, -, hvalue, -, -, -, -, -, -, -, -, -, -, -, hmessages⟩ :=
    process_substituted (.inr rfl) hinlines hlinks hwell hfree { world := 0 } { world := () } trivial
  refine ⟨hinlines, hwell, hvalue, hmessages fun call world => rfl, ?_⟩
  decide +kernel

/-- Whether two contexts exclude the same elements and have the same link resolver, and the template
resolver of the first answers each call with one text that has the value of the call. -/
structure Expands (value : TemplateCall → String) (ctx plain : Context σ) : Prop where
  /-- The same elements are excluded. -/
  excluded : ctx.excluded = plain.excluded
  /-- The link resolvers are the same. -/
  link : ctx.link = plain.link
  /-- Template calls are answered with one text. -/
  text : ∀ call world, ∃ n next, ctx.answer? (.template call) world = some ([n], next) ∧
    n.text? = some (value call)

/-- Besides the link resolver of `linksOnly`, one that answers every template with the same text and
warns. -/
def warner : Context Unit :=
  { linksOnly with
    template := .function fun _ world =>
      { asides := [(.note { level := .warning, text := .str "w" }, world)]
        outcome := .ok (.list [Node.text "x"])
        world := world } }

/-- A resolver for links that says whether a node that it is handed carries data, and none for
templates. -/
def dataSeer : Context Unit where
  link := .function fun reference world =>
    { outcome := .ok (.list [Node.text (if reference.nodes.any fun n =>
          match n with
          | .node _ { data := .null, .. } _ => false
          | _ => true then "data" else "none")])
      world := world }
  template := .value .null

/-- Besides the same resolver for links, one that answers every template with the same text, which
carries data. -/
def dataGiver : Context Unit :=
  { dataSeer with
    template := .function fun _ world =>
      { outcome := .ok (.list [.node (.text "x") { data := .bool true } []]), world := world } }

/-- A resolver for links that says whether its state was changed, and none for templates. -/
def stateSeer : Context Nat where
  link := .function fun _ world =>
    { outcome := .ok (.list [Node.text (if world = 0 then "none" else "changed")]), world := world }
  template := .value .null

/-- Besides the same resolver for links, one that answers every template with the same text and changes
the state of both. -/
def stateGiver : Context Nat :=
  { stateSeer with
    template := .function fun _ world =>
      { outcome := .ok (.list [Node.text "x"]), world := world + 1 } }

/-- A document in which a link displays a template between two elements. -/
def shownTemplate : Node :=
  .root [.text "[[f|y", .element "b" [] [], .text "::a::", .element "i" [] [], .text "]]"]

/-- The same document with the template written out. -/
def shownText : Node := shownTemplate.substituted (fun _ => "x") Tags.code

/-- What a template resolver says is not said about a document with the templates written out. A link
resolver that looks at what texts carry can tell the two documents apart, and so can one that notices
the template calls. -/
theorem process_substituted_toldApart :
    shownTemplate.wellFormed = true ∧ shownText.TemplateFree Tags.code ∧
    warner.Expands (fun _ => "x") linksOnly ∧
      (warner.process shownTemplate { world := () }).state.messages.warnings.length = 1 ∧
      (linksOnly.process shownText { world := () }).state.messages.warnings.length = 0 ∧
    dataGiver.Expands (fun _ => "x") dataSeer ∧
      (dataGiver.process shownTemplate { world := () }).value.children.map Node.text? =
        [some "data"] ∧
      (dataSeer.process shownText { world := () }).value.children.map Node.text? =
        [some "none"] ∧
    stateGiver.Expands (fun _ => "x") stateSeer ∧
      (stateGiver.process shownTemplate { world := 0 }).value.children.map Node.text? =
        [some "changed"] ∧
      (stateSeer.process shownText { world := 0 }).value.children.map Node.text? =
        [some "none"] := by
  refine ⟨by decide, by decide +kernel, ⟨rfl, rfl, fun call world => ⟨_, _, rfl, rfl⟩⟩,
    by decide +kernel, by decide +kernel, ⟨rfl, rfl, fun call world => ⟨_, _, rfl, rfl⟩⟩,
    by decide +kernel, by decide +kernel, ⟨rfl, rfl, fun call world => ⟨_, _, rfl, rfl⟩⟩,
    by decide +kernel, by decide +kernel⟩

end Context

end Transclude
