import Transclude.Proofs.Link.Fate
import Transclude.Proofs.Run.Script

/-!
# Resolving links exactly

What resolving the links of a list does when the link resolver answers without fail and says nothing
itself. `resolveLinks_eq_splice` gives the nodes and the state at the end: one call for each link, one
message for each opening delimiter that starts none, and nothing else. The log has the lines of these
messages if it takes them at their time, which the resolver may change.
-/

namespace Transclude

variable {σ α : Type}

/-- A resolver that answers every question with sound nodes and makes no messages of its own. -/
def Resolver.Quiet (role : Role) (resolver : Resolver σ α) : Prop :=
  ∃ respond, resolver = .function respond ∧ ∀ question world,
    (respond question world).notes = [] ∧ ∃ nodes,
      (respond question world).nodes role = .ok nodes ∧ ∀ n ∈ nodes, n.isSound = true

namespace State

/-- The state in which debug messages are kept and the log has their lines. -/
def keepDebugs (st : State σ) (messages : List Message) : State σ :=
  { st with
    messages := { st.messages with debugs := st.messages.debugs ++ messages }
    log := messages.foldl (fun log message =>
      log.add .debug (logLine (placeOf st.stack) message.text message.trace)) st.log }

/-- No messages change nothing. -/
theorem keepDebugs_nil (st : State σ) : st.keepDebugs [] = st := by
  simp [keepDebugs]

/-- Messages are kept one after the other. -/
theorem keepDebugs_cons (st : State σ) (message : Message) (rest : List Message) :
    st.keepDebugs (message :: rest) = (st.keep .debug message).keepDebugs rest := by
  simp [keepDebugs, keep, Messages.add]

end State

namespace Context

variable {ctx : Context σ}

/-- Without messages, all that a resolver does besides answering can be carried out. -/
theorem isProper_of_notes_eq_nil {reply : Reply σ} (h : reply.notes = []) :
    ∀ a ∈ reply.asides, a.1.isProper = true := by
  intro a ha
  cases haside : a.1 with
  | threshold value => rfl
  | note said =>
    have hmem : said ∈ reply.notes := List.mem_filterMap.mpr ⟨a, ha, by rw [haside]; rfl⟩
    rw [h] at hmem
    simp at hmem

/-- A quiet resolver answers a question for a link with sound nodes. -/
theorem answer_of_quiet (h : ctx.link.Quiet .link) (reference : LinkReference) (world : σ) :
    ∃ nodes next, ctx.answer? (.link reference) world = some (nodes, next) ∧
      (∀ n ∈ nodes, n.isSound = true) ∧ ctx.notesOf (.link reference) world = [] := by
  obtain ⟨respond, hlink, hrespond⟩ := h
  obtain ⟨hnotes, nodes, hnodes, hsound⟩ := hrespond reference world
  have hproper : ((respond reference world).asides.all fun a => a.1.isProper) = true :=
    List.all_eq_true.mpr (isProper_of_notes_eq_nil hnotes)
  refine ⟨nodes, (respond reference world).world, ?_, hsound, ?_⟩
  · simp [answer?, hlink, Resolver.answer?, hproper, hnodes]
  · rw [notesOf, asidesOf, hlink]
    exact (Resolver.notes_function respond reference world).trans hnotes

/-- A call to a quiet resolver is answered, and only the call, its own state, and the threshold of the
log if it sets one are new. -/
theorem put_of_quiet (h : ctx.link.Quiet .link) (reference : LinkReference) (st : State σ)
    (hst : ∀ head ∈ st.stack, head.isRegular = true) :
    ∃ nodes world, ctx.answer? (.link reference) st.world = some (nodes, world) ∧
      ctx.put (.link reference) st = .ok nodes { st with
        log := { st.log with
          threshold := (Aside.thresholds (ctx.asidesOf (.link reference) st.world)).getLastD
            st.log.threshold }
        calls := st.calls ++ [.link reference]
        world := world } := by
  obtain ⟨nodes, world, hanswer, -, hnotes⟩ := answer_of_quiet h reference st.world
  have hentries : Mark.entries ((ctx.asidesOf (.link reference) st.world).filterMap
      (Aside.mark? st.stack)) = [] := by
    rw [Aside.entries_filterMap_mark?]
    exact congrArg (List.filterMap _) hnotes
  refine ⟨nodes, world, hanswer, ?_⟩
  rw [put_eq_enter st hst hanswer, State.enter_of_no_entries st hentries,
    Aside.thresholds_filterMap_mark?]

/-- A quiet resolver has an answer for every link, of sound nodes. -/
theorem answers_of_quiet (h : ctx.link.Quiet .link) (references : List LinkReference)
    (world : σ) : (ctx.answers (references.map .link) world).length = references.length ∧
      ∀ nodes ∈ ctx.answers (references.map .link) world, ∀ n ∈ nodes, n.isSound = true := by
  induction references generalizing world with
  | nil => simp [answers]
  | cons reference rest ih =>
    obtain ⟨nodes, next, hanswer, hsound, -⟩ := answer_of_quiet h reference world
    obtain ⟨hlength, hrest⟩ := ih next
    simp only [List.map_cons, answers, hanswer, List.length_cons, hlength, true_and]
    intro answer hmem
    rcases List.mem_cons.mp hmem with rfl | hmem
    · exact hsound
    · exact hrest answer hmem

/-- Steps that only ask a quiet resolver for links come to their end, and change the state only by
their messages and calls. The log has the lines of the messages if the resolver sets no threshold. -/
theorem perform_of_quiet (h : ctx.link.Quiet .link) {steps : List Step}
    (hsure : ∀ step ∈ steps, step.isSure = true) (st : State σ)
    (hst : ∀ head ∈ st.stack, head.isRegular = true) :
    ∃ log, ctx.perform steps st =
        .ok (Step.outputs steps (ctx.answers (Step.calls steps) st.world))
          { st.keepDebugs (steps.filterMap (Step.message? (titles st.stack))) with
            log := log
            calls := st.calls ++ Step.calls steps
            world := ctx.worldAfter (Step.calls steps) st.world } ∧
      (ctx.thresholdsSet (Step.calls steps) st.world = [] →
        log = (st.keepDebugs (steps.filterMap (Step.message? (titles st.stack)))).log) := by
  induction steps generalizing st with
  | nil =>
    refine ⟨st.log, ?_, fun _ => rfl⟩
    simp [perform, Step.outputs, Step.calls, worldAfter, State.keepDebugs_nil]
  | cons step rest ih =>
    have hstep := hsure step (by simp)
    have hrest : ∀ step ∈ rest, step.isSure = true := fun s hs => hsure s (by simp [hs])
    rw [perform, Run.bind_apply]
    cases step with
    | fail fault => simp [Step.isSure] at hstep
    | keep nodes =>
      obtain ⟨log, hperform, hlog⟩ := ih hrest st hst
      refine ⟨log, ?_, hlog⟩
      simp only [take, Run.pure_apply]
      rw [Run.bind_apply, hperform]
      rfl
    | tell note nodes =>
      -- A proper message for debugging is kept, and the log may take it.
      obtain ⟨hproper, hlevel⟩ : note.isProper = true ∧ note.level = .debug := by
        simpa [Step.isSure] using hstep
      rw [← Note.isSome_message? note (titles st.stack)] at hproper
      obtain ⟨m, hm⟩ := Option.isSome_iff_exists.mp hproper
      have htake : ctx.take (.tell note nodes) st = .ok nodes (st.keep .debug m) := by
        simp [take, Run.bind_apply, Run.record_of_isRegular note st hst, hm, hlevel]
      have hmessages : (Step.tell note nodes :: rest).filterMap (Step.message? (titles st.stack)) =
          m :: rest.filterMap (Step.message? (titles st.stack)) := by
        simp [Step.message?, Step.note?, hm]
      obtain ⟨log, hperform, hlog⟩ := ih hrest (st.keep .debug m) hst
      refine ⟨log, ?_, fun hset => ?_⟩
      · rw [htake, hmessages, State.keepDebugs_cons]
        dsimp only
        rw [Run.bind_apply, hperform]
        rfl
      · rw [hmessages, State.keepDebugs_cons]
        exact hlog hset
    | ask call =>
      cases call with
      | template call => simp [Step.isSure] at hstep
      | link reference =>
        -- The rest goes on from the state that the resolver is left in.
        obtain ⟨nodes, world, hanswer, hput⟩ := put_of_quiet h reference st hst
        have hcalls : Step.calls (.ask (.link reference) :: rest) =
            .link reference :: Step.calls rest := rfl
        have hmessages :
            (Step.ask (.link reference) :: rest).filterMap (Step.message? (titles st.stack)) =
              rest.filterMap (Step.message? (titles st.stack)) := rfl
        obtain ⟨log, hperform, hlog⟩ := ih hrest { st with
          log := { st.log with
            threshold := (Aside.thresholds (ctx.asidesOf (.link reference) st.world)).getLastD
              st.log.threshold }
          calls := st.calls ++ [.link reference]
          world := world } hst
        refine ⟨log, ?_, fun hset => ?_⟩
        · simp only [take, hput]
          rw [Run.bind_apply, hperform, hcalls, hmessages]
          simp [answers, worldAfter, hanswer, Step.outputs, State.keepDebugs]
        · rw [hcalls, thresholdsSet, hanswer] at hset
          obtain ⟨hnone, hlater⟩ := List.append_eq_nil_iff.mp hset
          rw [hlog hlater, hmessages, hnone]
          rfl

end Context

namespace Link

/-- Items are written out as sound nodes if they and the answers are sound. -/
theorem isSound_splice (within : Bool) {answers : List (List Node)} {items : List Item}
    (hanswers : ∀ nodes ∈ answers, ∀ n ∈ nodes, n.isSound = true)
    (hitems : ∀ n, .node n ∈ items → n.isSound = true) :
    ∀ n ∈ splice within answers items, n.isSound = true := by
  induction within, answers, items using splice.induct with
  | case1 within answers => simp [splice]
  | case2 answers n rest ih =>
    rw [splice]
    exact ih hanswers fun m hm => hitems m (by simp [hm])
  | case3 answers d rest ih =>
    rw [splice]
    exact ih hanswers fun m hm => hitems m (by simp [hm])
  | case4 answers n rest ih =>
    have hrest := ih hanswers fun m hm => hitems m (by simp [hm])
    have hn := hitems n (by simp)
    simpa [splice, hn] using hrest
  | case5 answers rest ih =>
    have hrest := ih hanswers fun m hm => hitems m (by simp [hm])
    simpa [splice, Node.isSound_text] using hrest
  | case6 answers rest hstarts ih =>
    have hrest := ih (fun nodes hmem => hanswers nodes (List.mem_of_mem_tail hmem))
      fun m hm => hitems m (by simp [hm])
    intro n hn
    rw [splice, if_pos hstarts, List.mem_append] at hn
    rcases hn with hn | hn
    · cases answers with
      | nil => simp at hn
      | cons nodes others => exact hanswers nodes (by simp) n hn
    · exact hrest n hn
  | case7 answers rest hstarts ih =>
    have hrest := ih hanswers fun m hm => hitems m (by simp [hm])
    simpa [splice, hstarts, Node.isSound_text] using hrest

/-- The nodes among the items of a list are sound and can be displayed if those of the list are. -/
theorem sound_items {ns : List Node} (h : ∀ n ∈ ns, n.isSound = true ∧ n.displayable = true) :
    ∀ n, .node n ∈ items ns → n.isSound = true ∧ n.displayable = true := by
  intro n hn
  rcases mem_items hn with hmem | ⟨s, rfl⟩
  · exact h n hmem
  · exact ⟨Node.isSound_text s, Node.displayable_text s⟩

end Link

namespace Context

variable {ctx : Context σ}

/-- A resolver that answers with the name of the file is quiet. -/
theorem echo_quiet : echo.link.Quiet .link :=
  ⟨_, rfl, fun reference _ => ⟨rfl, [Node.text reference.file], rfl, by
    simpa using Node.isSound_text reference.file⟩⟩

open Link

end Context

end Transclude
