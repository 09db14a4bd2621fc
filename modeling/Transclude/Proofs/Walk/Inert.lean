import Transclude.Proofs.Run.Exclusion
import Transclude.Proofs.Walk.Kept

/-!
# Excluded elements are inert

A walk leaves an excluded element as it is, and what it does around it does not depend on what is in
it. So in all trees in which the element has other children, the walk does the same: it gives the
same tree and makes the same calls, with the element in the same places (`uniform_script`). The
element stays in the tree unless a link takes it, and then the link resolver is given it as it is
(`exists_runsAround`). `excluded_inert` puts this together with the way in which a context comes by
its excluded tags.
-/

namespace Transclude

variable {X σ : Type}

open Node

/-! ## Walks around a node that they do not go into -/

namespace Node

/-- A family of well-formed nodes that are no texts, and that a walk does not go into. -/
structure Sealed (tags : Tags) (e : X → Node) : Prop where
  /-- They are well formed. -/
  wellFormed : ∀ x, (e x).wellFormed = true
  /-- They are no texts. -/
  text : ∀ x, (e x).text? = none
  /-- A walk does not go into them. -/
  admits : ∀ x, tags.admits (e x) = false

variable {tags : Tags} {e : X → Node}

mutual

/-- Walks through the fillings of a stencil with a sealed node go the same way. -/
theorem uniform_script (y : X) (he : Sealed tags e) : ∀ o : Stencil,
    (∀ x, (o.fill [e x]).wellFormed = true) →
    Script.Uniform e (Around e) fun x => (o.fill [e x]).script tags
  | .stray value, h => absurd (h y) (by simp [Stencil.fill, wellFormed])
  | .given 0, _ => by
    have hscript x : ((Stencil.given 0).fill [e x]).script tags = .done (e x) := by
      rw [Stencil.fill]
      exact script_of_not_admits (he.wellFormed x) (he.admits x)
    simp only [hscript]
    exact .done (around_self fun x => isFit_of_wellFormed (he.wellFormed x))
  | .given (i + 1), h => absurd (h y) (by simp [Stencil.fill, wellFormed])
  | .node head info children, h => by
    simp only [Stencil.fill] at h ⊢
    have hr := (wellFormed_node.mp (h y)).1
    have hsame x : tags.admits (.node head info (Stencil.fillAll [e x] children)) =
        tags.admits (.node head info (Stencil.fillAll [e y] children)) := by
      simp only [Tags.admits, hasChildren, Stencil.isEmpty_fillAll]
    cases hadmits : tags.admits (.node head info (Stencil.fillAll [e y] children)) with
    | false =>
      simp only [script_of_not_admits (h _) ((hsame _).trans hadmits)]
      exact .done ⟨⟨.node head info children, fun x => by rw [Stencil.fill]⟩,
        fun x => isFit_of_wellFormed (h x)⟩
    | true =>
      have hchildren x := (wellFormed_node.mp (h x)).2.2
      simp only [script_of_admits ((hsame _).trans hadmits)]
      refine Script.Uniform.under hr ?_
      refine ((uniform_scripts y he children hchildren).bind fun spliced hspliced =>
        uniform_ending he.text hspliced).bind fun given hgiven => ?_
      exact .done (around_node hr hgiven)

/-- Walks through the fillings of stencils with a sealed node go the same way. -/
theorem uniform_scripts (y : X) (he : Sealed tags e) : ∀ os : List Stencil,
    (∀ x, allWellFormed (Stencil.fillAll [e x] os) = true) →
    Script.Uniform e (Aligned (Around e)) fun x => scripts tags (Stencil.fillAll [e x] os)
  | [], _ => by
    simp only [Stencil.fillAll, scripts]
    exact .done .nil
  | o :: rest, h => by
    simp only [Stencil.fillAll, allWellFormed, Bool.and_eq_true] at h ⊢
    have hfirst : Around e fun x => o.fill [e x] :=
      ⟨⟨o, fun x => rfl⟩, fun x => isFit_of_wellFormed (h x).1⟩
    have hothers {kept : X → List Node} (hkept : Aligned (Around e) kept) :=
      (uniform_scripts y he rest fun x => (h x).2).bind
        (f := fun x others => .done (kept x ++ others)) fun others hothers =>
          .done (hkept.append hothers)
    -- The first child has the same templates in all trees.
    obtain ⟨templates, ht⟩ := hfirst.exists_templates he.text
    by_cases hnone : templates = []
    · simp only [scripts_of_no_templates ((ht _).trans hnone)]
      exact (uniform_script y he o fun x => (h x).1).bind fun m hm => hothers (.singleton hm)
    · have hsome x : (o.fill [e x]).templates ≠ [] := by rwa [ht]
      simp only [scripts_of_templates (hsome _)]
      exact (Script.uniform_ofSteps (around_templateSteps he.text hfirst)).bind
        fun nodes hnodes => hothers hnodes

end

/-- What may be chosen as the children of an element. -/
abbrev Choice := { new : List Node // allWellFormed new = true }

/-- An element that is excluded may have children. -/
theorem listed_of_excludes {head : Head} (hr : head.isRegular = true)
    (h : tags.excludes head = .ok true) : head.listed = true := by
  rw [Tags.excludes_of_isRegular hr, Except.ok.injEq] at h
  cases head with
  | element tag properties =>
    change (Kinds.single .element).within .containers = true
    decide
  | _ => simp [Tags.skips] at h

/-- An element that is excluded is sealed, whatever its children are. -/
theorem sealed_of_excludes {head : Head} (hr : head.isRegular = true)
    (h : tags.excludes head = .ok true) (info : Info) :
    Sealed tags fun x : Choice => .node head info x.1 where
  wellFormed x := wellFormed_node.mpr ⟨hr, .inl (listed_of_excludes hr h), x.2⟩
  text x := text?_of_listed hr (listed_of_excludes hr h) info x.1
  admits x := by
    rw [Tags.excludes_of_isRegular hr, Except.ok.injEq] at h
    simp [Tags.admits, h]

/-- A tree stays well formed when a node in it that is listed gets other well-formed children. -/
theorem wellFormed_giveChildren {p : Place} {t : Node} {head : Head} {info : Info}
    {own new : List Node} (ht : t.wellFormed = true) (hat : at? p t = some (.node head info own))
    (hlisted : head.listed = true) (hnew : allWellFormed new = true) :
    (t.giveChildren new p).wellFormed = true := by
  induction p generalizing t with
  | nil =>
    obtain rfl : t = .node head info own := Option.some.inj hat
    exact wellFormed_node.mpr ⟨(wellFormed_node.mp ht).1, .inl hlisted, hnew⟩
  | cons i p ih =>
    obtain ⟨child, hchild, hbelow⟩ := at?_cons.mp hat
    obtain ⟨head', info', children, rfl, hr⟩ := exists_of_wellFormed ht
    obtain ⟨-, hlisted', hchildren⟩ := wellFormed_node.mp ht
    have hne : children ≠ [] := List.ne_nil_of_mem (List.mem_of_getElem? hchild)
    rw [giveChildren]
    refine wellFormed_node.mpr ⟨hr, .inl (hlisted'.resolve_right hne), ?_⟩
    refine allWellFormed_iff.mpr fun m hm => ?_
    obtain ⟨j, hj⟩ := List.mem_iff_getElem?.mp hm
    by_cases hij : i = j
    · subst hij
      have hchild : children[i]? = some child := hchild
      rw [List.getElem?_modify_eq, hchild] at hj
      obtain rfl : child.giveChildren new p = m := Option.some.inj hj
      exact ih (wellFormed_of_getElem? ht hchild) hbelow
    · rw [List.getElem?_modify_ne _ _ hij] at hj
      exact allWellFormed_iff.mp hchildren m (List.mem_of_getElem? hj)

end Node

/-! ## Runs -/

namespace Context

/-- How a run goes on a tree with a node in it that may be another in other runs. -/
structure RunsAround (ctx : Context σ) (t : Node) (st : State σ) (e : Node) (tree : Stencil)
    (asked : List CallStencil) : Prop where
  /-- The run does not fail. -/
  fault : (ctx.process t st).fault = none
  /-- The tree is then the same as in other runs around the node, which is as it was. -/
  value : (ctx.process t st).value = tree.fill [e]
  /-- The calls are the same as in other runs around the node, which is handed over as it is. -/
  calls : (ctx.process t st).state.calls = st.calls ++ asked.map (CallStencil.fill [e])
  /-- The node lies in the tree, or among the nodes that the link resolver was given. -/
  kept : (∃ q, at? q (ctx.process t st).value = some e) ∨
    ∃ call ∈ asked.map (CallStencil.fill [e]), ∃ n ∈ call.nodes, ∃ q, at? q n = some e

variable {ctx : Context σ}

/-- Runs through all trees in which an excluded element has other children go the same way around
it. -/
theorem exists_runsAround (hctx : ctx.Responsive) (hframe : ctx.AnswersByFrame) {t : Node}
    {p : Place} {head : Head} {info : Info} {own : List Node} (ht : t.wellFormed = true)
    (hat : at? p t = some (.node head info own)) (hexcluded : ctx.excluded.excludes head = .ok true)
    (st : State σ) :
    ∃ tree asked, ∀ new, allWellFormed new = true →
      ctx.RunsAround (t.giveChildren new p) st (.node head info new) tree asked ∧
      (ctx.SpeaksByFrame → ∀ level,
        ((ctx.process (t.giveChildren new p) st).state.messages.ofLevel level).map
            Message.untraced =
          ((ctx.process t st).state.messages.ofLevel level).map Message.untraced) := by
  have hn := wellFormed_node.mp (wellFormed_of_at? ht hat)
  have hlisted := listed_of_excludes hn.1 hexcluded
  have he := sealed_of_excludes hn.1 hexcluded info
  have htree (x : Choice) : (t.giveChildren x.1 p).wellFormed = true :=
    wellFormed_giveChildren ht hat hlisted x.2
  obtain ⟨o, ho⟩ := exists_stencil_giveChildren hat
  have huniform := uniform_script ⟨own, hn.2.2⟩ he o fun x => by rw [← ho]; exact htree x
  obtain ⟨events, m, after, hm, hevents, hpaths⟩ :=
    huniform.exists_paths hctx hframe fun _ => (fresh st).world
  obtain ⟨tree, hvalue⟩ := hm.stencil
  obtain ⟨asked, hcalls⟩ := Event.exists_calls hevents
  -- Each run is along its path.
  have hpath x : ((t.giveChildren x.1 p).script ctx.excluded).Path (events x) (m x) := by
    rw [ho]
    exact (hpaths x).1
  have hrun (x : Choice) : ctx.process (t.giveChildren x.1 p) st =
      ⟨m x, none, (fresh st).after (events x) (after x)⟩ := by
    have hproper := hevents.forall_mem (P := fun event => event.isProper = true)
      (fun _ h => h.isProper) x
    rw [process_of_wellFormed (htree x), visit_of_path (htree x) (hpath x) hproper
      (isRegular_of_mem_fresh st) (hpaths x).2]
  refine ⟨tree, asked, fun new hnew => ⟨⟨?_, ?_, ?_, ?_⟩, fun hspeaks level => ?_⟩⟩
  · rw [hrun ⟨new, hnew⟩]
  · rw [hrun ⟨new, hnew⟩]
    exact hvalue ⟨new, hnew⟩
  · rw [hrun ⟨new, hnew⟩, ← hcalls ⟨new, hnew⟩]
    rfl
  · have hkept := kept_of_path_script (htree ⟨new, hnew⟩) (at?_giveChildren_self hat new)
      (he.text ⟨new, hnew⟩) (he.admits ⟨new, hnew⟩) (hpath ⟨new, hnew⟩)
    rw [hrun ⟨new, hnew⟩, ← hcalls ⟨new, hnew⟩]
    rcases hkept with ⟨n, hn, -, q, hq⟩ | ⟨call, hcall, n, hn, -, hq⟩
    · exact .inl ⟨q, List.mem_singleton.mp hn ▸ hq⟩
    · exact .inr ⟨call, hcall, n, hn, hq⟩
  · obtain ⟨plain, hplain⟩ := Event.exists_entries hspeaks hevents []
    have hsame (x : Choice) :
        ((ctx.process (t.giveChildren x.1 p) st).state.messages.ofLevel level).map
          Message.untraced = (plain.filter (·.level = level)).map Entry.message := by
      rw [hrun, ← hplain x, ← Event.entries_flatMap_marks]
      exact Messages.map_untraced_ofLevel_enter _ level
    have hown := hsame ⟨own, hn.2.2⟩
    rw [giveChildren_self hat] at hown
    rw [hsame ⟨new, hnew⟩, hown]

/-- Excluded elements are inert. The excluded tags of a context are those that are chosen by a base
set and changes to it, whatever the order of either. When such a context processes a well-formed
tree with resolvers that answer, and go by the file, the id and the parameters but for the places
that they give to the nodes of a link, an excluded element anywhere in it is the same afterwards: it
lies in the tree unless the link resolver was given it as it is. The run is the same around it on
each tree in which it has other children: the rest of the tree, the calls, and, if what the
resolvers say goes by the same, the messages without their traces. -/
theorem excluded_inert {base changes : Value} {members : List Value} {fields : Fields}
    (hbase : Tags.baseMembers? base = some members)
    (hchanges : Tags.changes? changes = some fields) :
    ∃ tags, Tags.configure base changes = .ok tags ∧
      (∀ tag properties,
        tags.excludes (.element tag properties) = .ok true ↔ Tags.Chosen members fields tag) ∧
      ∀ {σ : Type} (ctx : Context σ) (t : Node) (p : Place) (head : Head) (info : Info)
        (own : List Node) (st : State σ), ctx.excluded = tags → ctx.Responsive →
        ctx.AnswersByFrame → t.wellFormed = true → at? p t = some (.node head info own) →
        tags.excludes head = .ok true →
        t.giveChildren own p = t ∧ ∃ tree asked, ∀ new, allWellFormed new = true →
          ctx.RunsAround (t.giveChildren new p) st (.node head info new) tree asked ∧
          (ctx.SpeaksByFrame → ∀ level,
            ((ctx.process (t.giveChildren new p) st).state.messages.ofLevel level).map
                Message.untraced =
              ((ctx.process t st).state.messages.ofLevel level).map Message.untraced) := by
  obtain ⟨tags, hconfigure, hexcludes⟩ := Tags.excludes_configure hbase hchanges
  refine ⟨tags, hconfigure, hexcludes, ?_⟩
  rintro σ ctx t p head info own st rfl hctx hframe ht hat hexcluded
  exact ⟨giveChildren_self hat, exists_runsAround hctx hframe ht hat hexcluded st⟩

/-- Resolvers that put what a link displays in an element with the name of the file, and answer
templates as `echo` does. Elements with the tag `tt` are excluded, and those with the tag `pre` are
not. -/
def enclosing : Context Unit where
  link := .function fun reference world =>
    { outcome := .ok (.list [.element "a" [("href", .str reference.file)] reference.nodes])
      world := world }
  template := echo.template
  excluded := [.str "code", .str "tt"]

/-- The resolvers of `enclosing` answer every fit call. -/
theorem responsive_enclosing : enclosing.Responsive := by
  intro call hcall world
  cases call with
  | link reference =>
    refine ⟨[.element "a" [("href", .str reference.file)] reference.nodes], world, rfl, ?_⟩
    exact fun n hn => List.mem_singleton.mp hn ▸ isFit_of_isRegular rfl hcall
  | template call => exact answering_echo (.template call) world

/-- What the resolvers of `enclosing` put around the nodes of a call. -/
def enclosingStencils : Call → List Stencil
  | .link reference => [.node (.element "a" [("href", .str reference.file)]) {}
      ((List.range reference.nodes.length).map .given)]
  | .template call => [(text call.file).stencil]

/-- The resolvers of `enclosing` go by the frame of a call. -/
theorem answersByFrame_enclosing : enclosing.AnswersByFrame := by
  refine ⟨enclosingStencils, fun call world nodes next h => ?_⟩
  cases call with
  | link reference =>
    obtain rfl : [.element "a" [("href", .str reference.file)] reference.nodes] = nodes :=
      congrArg Prod.fst (Option.some.inj h)
    have hgiven : Stencil.fillAll reference.nodes
        ((List.range reference.nodes.length).map .given) = reference.nodes := by
      rw [Stencil.fillAll_eq_map, List.map_map]
      refine List.ext_getElem (by simp) fun i hi hi' => ?_
      simp [Stencil.fill, hi']
    simp [enclosingStencils, Call.frame, Call.nodes, Stencil.fill, hgiven, Node.element]
  | template call =>
    obtain rfl : [text call.file] = nodes := congrArg Prod.fst (Option.some.inj h)
    simp [enclosingStencils, Call.frame, fill_stencil]

/-- A document in which an element with something inside is in a link. -/
def linkAround (inside : List Node) : Node :=
  .root [.text "::t:: [[f|see ", .element "tt" [] inside, .text "]]"]

/-- The resolver is given the element as it is, and puts it in its answer. -/
theorem excluded_inert_linkAround :
    Tags.baseMembers? .null = some Tags.code ∧
      Tags.changes? (.obj [("tt", .int 1), ("pre", .bool false)]) =
        some [("tt", .int 1), ("pre", .bool false)] ∧
      Tags.configure .null (.obj [("tt", .int 1), ("pre", .bool false)]) =
        .ok enclosing.excluded ∧
      ∃ tree asked, ∀ new, allWellFormed new = true →
        enclosing.RunsAround (linkAround new) { world := () } (.element "tt" [] new) tree asked ∧
        ∀ level, ((enclosing.process (linkAround new) { world := () }).state.messages.ofLevel
            level).map Message.untraced =
          ((enclosing.process (linkAround [.text "::x:: [[ [[g]]"])
            { world := () }).state.messages.ofLevel level).map Message.untraced := by
  have hbase : Tags.baseMembers? .null = some Tags.code := rfl
  have hchanges : Tags.changes? (.obj [("tt", .int 1), ("pre", .bool false)]) =
      some [("tt", .int 1), ("pre", .bool false)] := rfl
  have hbuilt : Tags.configure .null (.obj [("tt", .int 1), ("pre", .bool false)]) =
      .ok enclosing.excluded := by
    have hchanged : Tags.adjust Tags.code [(.str "tt", .int 1), (.str "pre", .bool false)] =
        enclosing.excluded := by
      simp [Tags.adjust, Tags.code, Tags.add, Tags.discard, Tags.has, Value.holds, Value.same,
        Value.sameScalar, enclosing]
    exact congrArg Except.ok hchanged
  obtain ⟨tags, hconfigure, hexcludes, hinert⟩ := excluded_inert hbase hchanges
  obtain rfl := Except.ok.inj (hbuilt.symm.trans hconfigure)
  have hexcluded : enclosing.excluded.excludes (.element "tt" []) = .ok true :=
    (hexcludes "tt" []).mpr (.inl ⟨.int 1, by simp, rfl⟩)
  have hwell : (linkAround [.text "::x:: [[ [[g]]"]).wellFormed = true := by decide
  obtain ⟨-, tree, asked, hruns⟩ := hinert enclosing _ [1] (.element "tt" []) {} _
    { world := () } rfl responsive_enclosing answersByFrame_enclosing hwell rfl hexcluded
  refine ⟨hbase, hchanges, hbuilt, tree, asked, fun new hnew => ?_⟩
  obtain ⟨hrun, hmessages⟩ := hruns new hnew
  refine ⟨hrun, hmessages fun call other world during _ => ?_⟩
  cases call <;> cases other <;> rfl

end Context

end Transclude
