import Transclude.Proofs.Walk.Family

/-!
# Scripts that go the same way

A family of scripts goes the same way if it makes the same messages, but for their traces, and the
same calls, but for the chosen node in what these hand over. `Script.Uniform` says so, whatever the
resolvers answer as long as they put what they are given in the same places. Such resolvers go by
the frame of a call, which leaves the nodes out. They take the scripts along paths whose events are
a family around the chosen node (`exists_paths`).
-/

namespace Transclude

variable {X σ α β : Type}

open Node

/-! ## Scripts -/

namespace Script

/-- A family of scripts that make the same messages, but for their traces, and ask for the same,
each time in the same containers, and give values of a kind, whatever is chosen and whatever nodes
around the chosen one are answered. -/
inductive Uniform (e : X → Node) (Post : (X → α) → Prop) : (X → Script α) → Prop where
  /-- Values are given. -/
  | done {a : X → α} : Post a → Uniform e Post fun x => .done (a x)
  /-- A message is made. -/
  | tell {inner : List Head} {note : X → Note} {next : X → Script α} :
    inner.all Head.isRegular = true → Note.Steady note → Uniform e Post next →
    Uniform e Post fun x => .tell inner (note x) (next x)
  /-- A resolver is asked. -/
  | ask {inner : List Head} {call : X → Call} {next : X → List Node → Script α} :
    inner.all Head.isRegular = true → Call.Around e call →
    (∀ nodes, Aligned (Node.Around e) nodes → Uniform e Post fun x => next x (nodes x)) →
    Uniform e Post fun x => .ask inner (call x) (next x)

variable {e : X → Node} {Post Mid : (X → α) → Prop} {Last : (X → β) → Prop} {s : X → Script α}

/-- Scripts go the same way if their parts do. -/
theorem Uniform.bind {f : X → α → Script β} (h : Uniform e Mid s)
    (hrest : ∀ a, Mid a → Uniform e Last fun x => f x (a x)) :
    Uniform e Last fun x => (s x).bind (f x) := by
  induction h with
  | done ha => exact hrest _ ha
  | tell hinner hnote _ ih => exact .tell hinner hnote ih
  | ask hinner hcall _ ih => exact .ask hinner hcall ih

/-- Scripts go the same way in a container. -/
theorem Uniform.under {head : Head} (hr : head.isRegular = true) (h : Uniform e Post s) :
    Uniform e Post fun x => (s x).under head := by
  induction h with
  | done ha => exact .done ha
  | tell hinner hnote _ ih => exact .tell (by simpa [hr] using hinner) hnote ih
  | ask hinner hcall _ ih => exact .ask (by simpa [hr] using hinner) hcall ih

/-- The same steps go the same way. -/
theorem uniform_ofSteps {steps : X → List Step} (h : Aligned (Step.Around e) steps) :
    Uniform e (Aligned (Node.Around e)) fun x => ofSteps (steps x) := by
  induction h with
  | nil => exact .done .nil
  | cons hstep _ ih =>
    -- What comes after the first step follows its nodes.
    have hrest {kept : X → List Node} (hkept : Aligned (Node.Around e) kept) :=
      ih.bind (f := fun x others => .done (kept x ++ others)) fun others hothers =>
        .done (hkept.append hothers)
    cases hstep with
    | keep hnodes => exact hrest hnodes
    | tell hnote hnodes => exact .tell rfl hnote (hrest hnodes)
    | ask hcall => exact .ask rfl hcall fun nodes hnodes => hrest hnodes

end Script

namespace Node

variable {e : X → Node}

/-- Containers whose children have become nodes around the chosen one are ended in the same way. -/
theorem uniform_ending (he : ∀ x, (e x).text? = none) {ns : X → List Node}
    (h : Aligned (Around e) ns) :
    Script.Uniform e (Aligned (Around e)) fun x => ending (ns x) := by
  simp only [ending_of_isFit (isFit_of_aligned h _)]
  refine (Script.uniform_ofSteps (around_linkSteps he h)).bind fun output houtput => ?_
  have hmerge x : merge (output x) = .ok (mergeText (output x)) :=
    merge_of_isSound fun n hn => (isFit_iff.mp (isFit_of_aligned houtput x n hn)).1
  simp only [hmerge]
  exact .done (around_mergeText he houtput)

end Node

/-! ## The frames of calls -/

/-- A call around some open nodes. -/
inductive CallStencil where
  /-- A call for a link. -/
  | link (file : String) (id : Option String) (nodes : List Stencil)
  /-- A template call. -/
  | template (call : TemplateCall)
deriving Repr, Inhabited

/-- The call that is left when the open nodes are filled. -/
def CallStencil.fill (nodes : List Node) : CallStencil → Call
  | .link file id os => .link ⟨file, id, os.map (Stencil.fill nodes)⟩
  | .template call => .template call

namespace Call

/-- The nodes that a call hands over. -/
def nodes : Call → List Node
  | .link reference => reference.nodes
  | .template _ => []

/-- A call with an empty text in place of each node that it hands over. -/
def frame : Call → Call
  | .link reference => .link { reference with nodes := reference.nodes.map fun _ => text "" }
  | .template call => .template call

variable {e : X → Node} {call : X → Call}

/-- The calls of a family around a node have one frame. -/
theorem Around.exists_frame (h : Around e call) : ∃ frame, ∀ x, (call x).frame = frame := by
  cases h with
  | template call => exact ⟨.template call, fun x => rfl⟩
  | link hreference =>
    obtain ⟨file, id, hnodes⟩ := hreference
    obtain ⟨os, hos⟩ := exists_stencils hnodes
    refine ⟨.link ⟨file, id, os.map fun _ => text ""⟩, fun x => ?_⟩
    simp only [frame, hos, List.map_map]
    rfl

/-- The calls of a family around a node hand over nodes around it. -/
theorem Around.nodes (h : Around e call) : Aligned (Node.Around e) fun x => (call x).nodes := by
  cases h with
  | template call => exact .nil
  | link hreference =>
    obtain ⟨file, id, hnodes⟩ := hreference
    exact hnodes

/-- The calls of a family around a node are fit. -/
theorem Around.isFit (h : Around e call) (x : X) : (call x).IsFit := by
  have hnodes := isFit_of_aligned h.nodes x
  cases h with
  | template call => trivial
  | link hreference => exact hnodes

/-- The calls of a family around a node are fillings of one stencil. -/
theorem Around.exists_stencil (h : Around e call) :
    ∃ o : CallStencil, ∀ x, call x = o.fill [e x] := by
  cases h with
  | template call => exact ⟨.template call, fun x => rfl⟩
  | link hreference =>
    obtain ⟨file, id, hnodes⟩ := hreference
    obtain ⟨os, hos⟩ := exists_stencils hnodes
    refine ⟨.link file id os, fun x => ?_⟩
    simp only [CallStencil.fill, hos]

end Call

namespace Context

/-- What the resolvers answer depends on the frame of a call. They put the nodes that are handed
over in places that depend on nothing else. -/
def AnswersByFrame (ctx : Context σ) : Prop := ∃ stencils : Call → List Stencil,
  ∀ call world nodes next, ctx.answer? call world = some (nodes, next) →
    nodes = (stencils call.frame).map (Stencil.fill call.nodes)

/-- What the resolvers say while they answer depends on the frame of a call, but for the traces. -/
def SpeaksByFrame (ctx : Context σ) : Prop := ∀ call other world during,
  call.frame = other.frame → (ctx.notesOf call world).map Note.untraced =
    (ctx.notesOf other during).map Note.untraced

variable {ctx : Context σ}

/-- A resolver that answers makes proper messages. -/
theorem isProper_of_answer? {call : Call} {world : σ} {answer : List Node × σ}
    (h : ctx.answer? call world = some answer) :
    ∀ note ∈ ctx.notesOf call world, note.isProper = true := by
  have hresolver {γ : Type} {role : Role} {resolver : Resolver σ γ} {question : γ}
      (h : resolver.answer? role question world = some answer) :
      ∀ note ∈ resolver.notes question world, note.isProper = true := by
    cases resolver with
    | value given => simp [Resolver.answer?] at h
    | function respond =>
      simp only [Resolver.answer?] at h
      split at h
      · next hasides _ =>
        intro note hnote
        obtain ⟨aside, haside, hsaid⟩ := List.mem_filterMap.mp hnote
        obtain ⟨a, ha, rfl⟩ := List.mem_map.mp haside
        have hproper : a.1.isProper = true := List.all_eq_true.mp hasides a ha
        cases hfirst : a.1 with
        | threshold value => simp [hfirst, Aside.note?] at hsaid
        | note said =>
          rw [hfirst] at hproper hsaid
          obtain rfl : said = note := Option.some.inj hsaid
          exact hproper
      · simp at h
  cases call with
  | link reference => exact hresolver h
  | template call => exact hresolver h

end Context

/-- Stencils that are filled with nodes around the chosen one give nodes around it, if these are
fit. -/
theorem Node.around_fill {e : X → Node} {ns : X → List Node} (h : Aligned (Around e) ns)
    {os : List Stencil} (hfit : ∀ x, ∀ n ∈ os.map (Stencil.fill (ns x)), n.isFit = true) :
    Aligned (Around e) fun x => os.map (Stencil.fill (ns x)) := by
  obtain ⟨given, hgiven⟩ := exists_stencils h
  induction os with
  | nil => exact .nil
  | cons o rest ih =>
    have hfirst : Around e fun x => o.fill (ns x) := by
      refine ⟨⟨o.subst given, fun x => ?_⟩, fun x => hfit x _ (by simp)⟩
      rw [Stencil.fill_subst, hgiven]
    exact .cons hfirst (ih fun x n hn => hfit x n (by simp [hn]))

/-! ## Paths -/

/-- A family of events in the same containers: messages that are the same but for their traces, or
calls around the chosen node. While a resolver answers it makes the same messages, but for their
traces, if what it says goes by the frame of the call. -/
inductive Event.Around (ctx : Context σ) (e : X → Node) : (X → Event) → Prop where
  /-- Messages are made. -/
  | told {inner : List Head} {note : X → Note} : inner.all Head.isRegular = true →
    Note.Steady note → Around ctx e fun x => .told inner (note x)
  /-- A resolver is asked. -/
  | asked {inner : List Head} {call : X → Call} {asides : X → List Aside}
      {answer : X → List Node} : inner.all Head.isRegular = true → Call.Around e call →
    (∀ x, ∀ note ∈ Aside.notes (asides x), note.isProper = true) →
    (ctx.SpeaksByFrame → ∃ plain, ∀ x, (Aside.notes (asides x)).map Note.untraced = plain) →
    Around ctx e fun x => .asked inner (call x) (asides x) (answer x)

/-- Resolvers that answer every fit call, by its frame, take scripts that go the same way along
paths with the same events around the chosen node, whatever their state is. -/
theorem Script.Uniform.exists_paths {ctx : Context σ} {e : X → Node} {Post : (X → α) → Prop}
    {s : X → Script α} (hctx : ctx.Responsive) (hframe : ctx.AnswersByFrame)
    (h : Uniform e Post s) (world : X → σ) :
    ∃ (events : X → List Event) (a : X → α) (after : X → σ), Post a ∧
      Aligned (Event.Around ctx e) events ∧
      ∀ x, (s x).Path (events x) (a x) ∧ ctx.Plays (world x) (events x) (after x) := by
  induction h generalizing world with
  | @done a ha => exact ⟨fun _ => [], a, world, ha, .nil, fun x => ⟨.done _, .nil _⟩⟩
  | tell hinner hnote _ ih =>
    obtain ⟨events, a, after, ha, haround, hpaths⟩ := ih world
    exact ⟨_, a, after, ha, .cons (.told hinner hnote) haround,
      fun x => ⟨(hpaths x).1.tell, .told _ _ (hpaths x).2⟩⟩
  | @ask inner call next hinner hcall _ ih =>
    choose nodes mid hanswer hfit using fun x => hctx (call x) (hcall.isFit x) (world x)
    -- The answers are the same stencils, filled with nodes around the chosen one.
    obtain ⟨frame, hsame⟩ := hcall.exists_frame
    obtain ⟨stencils, hstencils⟩ := hframe
    have heq : nodes = fun x => (stencils frame).map (Stencil.fill (call x).nodes) := by
      funext x
      rw [hstencils _ _ _ _ (hanswer x), hsame]
    have hnodes : Aligned (Node.Around e) nodes := by
      subst heq
      exact around_fill hcall.nodes hfit
    obtain ⟨events, a, after, ha, haround, hpaths⟩ := ih nodes hnodes mid
    have hspeaks : ctx.SpeaksByFrame →
        ∃ plain, ∀ x, (ctx.notesOf (call x) (world x)).map Note.untraced = plain := by
      intro hspeaks
      by_cases hx : Nonempty X
      · obtain ⟨y⟩ := hx
        exact ⟨_, fun x => hspeaks _ (call y) _ (world y) ((hsame x).trans (hsame y).symm)⟩
      · exact ⟨[], fun x => absurd ⟨x⟩ hx⟩
    have hproper x := Context.isProper_of_answer? (hanswer x)
    exact ⟨_, a, after, ha, .cons (.asked hinner hcall hproper hspeaks) haround,
      fun x => ⟨(hpaths x).1.ask _, .asked _ (hanswer x) (hpaths x).2⟩⟩

/-! ## What the events leave -/

/-- A message without its trace. -/
def Message.untraced (m : Message) : Message := { m with trace := "" }

/-- An entry without its trace. -/
def Entry.untraced (e : Entry) : Entry := { e with trace := "" }

/-- The entry of a proper note without its trace is that of the note without its trace. -/
theorem Note.map_untraced_entry? {note : Note} (h : note.isProper = true) (stack : List Head) :
    (note.entry? stack).map Entry.untraced = note.untraced.entry? stack := by
  obtain ⟨level, text, trace, calledFrom⟩ := note
  unfold isProper message? at h
  dsimp only at h
  split at h <;> simp_all [message?, untraced, Entry.untraced, entry?]

namespace Event

variable {ctx : Context σ} {e : X → Node} {event : X → Event} {events : X → List Event}

/-- The events of a family around a node are proper. -/
theorem Around.isProper (h : Around ctx e event) (x : X) : (event x).isProper = true := by
  cases h with
  | told hinner hnote => simp [Event.isProper, hinner, hnote.proper x]
  | asked hinner _ _ _ => simpa [Event.isProper] using hinner

/-- The entries of the events of a family around a node are the same but for their traces. -/
theorem Around.exists_entries (hctx : ctx.SpeaksByFrame) (h : Around ctx e event)
    (outer : List Head) :
    ∃ plain, ∀ x, ((event x).entries outer).map Entry.untraced = plain := by
  cases h with
  | @told inner note _ hnote =>
    obtain ⟨plain, hplain⟩ := hnote.untraced
    refine ⟨(plain.entry? (outer ++ inner)).toList, fun x => ?_⟩
    rw [entries, ← hplain x, ← Note.map_untraced_entry? (hnote.proper x), Option.toList_map]
  | @asked inner _ asides _ _ _ hproper hnotes =>
    obtain ⟨plain, hplain⟩ := hnotes hctx
    refine ⟨plain.filterMap (Note.entry? (outer ++ inner)), fun x => ?_⟩
    rw [entries, ← hplain x, List.filterMap_map, List.map_filterMap]
    exact List.filterMap_congr fun note hnote => Note.map_untraced_entry? (hproper x note hnote) _

/-- The entries of families of events around a node are the same but for their traces. -/
theorem exists_entries (hctx : ctx.SpeaksByFrame) (h : Aligned (Around ctx e) events)
    (outer : List Head) :
    ∃ plain, ∀ x, ((events x).flatMap (Event.entries outer)).map Entry.untraced = plain := by
  induction h with
  | nil => exact ⟨[], fun x => rfl⟩
  | cons hevent _ ih =>
    obtain ⟨first, hfirst⟩ := hevent.exists_entries hctx outer
    obtain ⟨others, hothers⟩ := ih
    refine ⟨first ++ others, fun x => ?_⟩
    rw [List.flatMap_cons, List.map_append, hfirst, hothers]

/-- The calls of families of events around a node are fillings of the same stencils. -/
theorem exists_calls (h : Aligned (Around ctx e) events) :
    ∃ os : List CallStencil, ∀ x,
      (talk (events x)).map Prod.fst = os.map (CallStencil.fill [e x]) := by
  induction h with
  | nil => exact ⟨[], fun x => rfl⟩
  | cons hevent _ ih =>
    obtain ⟨os, hos⟩ := ih
    cases hevent with
    | told _ _ => exact ⟨os, hos⟩
    | asked _ hcall _ _ =>
      obtain ⟨o, ho⟩ := hcall.exists_stencil
      refine ⟨o :: os, fun x => ?_⟩
      rw [List.map_cons, ← ho, ← hos]
      rfl

end Event

/-- The messages that are left by entries are the same but for their traces if the entries are. -/
theorem Messages.map_untraced_ofLevel_enter (entries : List Entry) (level : Level) :
    ((Messages.enter {} entries).ofLevel level).map Message.untraced =
      ((entries.map Entry.untraced).filter (·.level = level)).map Entry.message := by
  have hnone : ofLevel {} level = [] := by cases level <;> rfl
  rw [ofLevel_enter, hnone, List.nil_append, List.filter_map, List.map_map, List.map_map]
  rfl

end Transclude
