import Transclude.Proofs.Run.Still
import Transclude.Proofs.Template.Leftmost
import Transclude.Proofs.Walk.Carry
import Transclude.Proofs.Walk.Script

/-!
# What needs a resolver

Something is to be resolved in a tree if, among the children of a container that a walk goes into,
there is a text with a template, or a link once adjacent texts are joined. `Node.Needs` says so of
the tree as it is given, and `Node.idle` computes whether it is not so. An idle tree settles without
a call, and no other tree is processed without one: `still?_script`. So where nothing can be called,
processing fails exactly for the trees that need a resolver (`process_of_not_callable`).
-/

namespace Transclude

/-! ## Templates and links among nodes -/

namespace Link

/-- There is a link among nodes, once their adjacent texts are joined: an opening delimiter that
starts a link. -/
def HasLink (ns : List Node) : Prop :=
  ∃ front rest, items (Node.joinRuns ns) = front ++ .delimiter .start :: rest ∧
    startsLink rest = true

/-- What is inside of the link that a delimiter starts. -/
theorem inside?_fateOf (rest : List Item) :
    (fateOf rest).inside? = if startsLink rest then some (inside rest) else none := by
  unfold fateOf startsLink
  by_cases hnext : next? rest = some .stop
  · cases hbegins : beginsLink (inside rest) <;> simp [hnext, Fate.inside?]
  · simp [hnext, Fate.inside?]

/-- No item starts a link if no opening delimiter has the fate to. -/
theorem filterMap_inside?_eq_nil_iff {is : List Item} :
    (fates is).filterMap Fate.inside? = [] ↔
      ∀ front rest, is = front ++ .delimiter .start :: rest → startsLink rest = false := by
  induction is with
  | nil => simp [fates]
  | cons item others ih =>
    -- What is in front of a later delimiter begins with the first item.
    have hcons (item : Item) : (∀ front rest, item :: others = front ++ .delimiter .start :: rest →
          startsLink rest = false) ↔
        (item = .delimiter .start → startsLink others = false) ∧
          ∀ front rest, others = front ++ .delimiter .start :: rest → startsLink rest = false := by
      constructor
      · intro h
        refine ⟨fun hitem => h [] others (by simp [hitem]), fun front rest hrest => ?_⟩
        exact h (item :: front) rest (by simp [hrest])
      · rintro ⟨hfirst, hothers⟩ front rest heq
        cases front with
        | nil =>
          obtain ⟨hitem, rfl⟩ : item = .delimiter .start ∧ others = rest := by simpa using heq
          exact hfirst hitem
        | cons other front =>
          obtain ⟨-, hrest⟩ : item = other ∧ others = front ++ .delimiter .start :: rest := by
            simpa using heq
          exact hothers front rest hrest
    rw [hcons, ← ih]
    cases item with
    | node n => simp [fates]
    | delimiter d =>
      cases d with
      | stop => simp [fates]
      | start =>
        rw [fates, List.filterMap_cons, inside?_fateOf]
        cases startsLink others <;> simp

end Link

namespace Node

/-- There is a text among nodes that has a template at some place. -/
def HasTemplate (ns : List Node) : Prop :=
  ∃ n ∈ ns, ∃ s, n.text? = some s ∧ ∃ start stop, Template.TemplateAt s.toList start stop

/-- A node has no templates if it is no text with a template. -/
theorem templates_eq_nil_iff {n : Node} : n.templates = [] ↔
    ∀ s, n.text? = some s → ∀ start stop, ¬ Template.TemplateAt s.toList start stop := by
  unfold templates
  cases n.text? with
  | none => simp
  | some s => simpa using Template.scan_eq_nil_iff

/-- Nodes none of which has templates. -/
theorem not_hasTemplate_iff {ns : List Node} :
    ¬ HasTemplate ns ↔ ∀ n ∈ ns, n.templates = [] := by
  unfold HasTemplate
  simp only [templates_eq_nil_iff, not_exists, not_and]

/-- The steps for the links of fit nodes do not fail. -/
theorem not_fail_mem_linkSteps {ns : List Node} (h : ∀ n ∈ ns, n.isFit = true) (fault : Fault) :
    .fail fault ∉ linkSteps ns := by
  intro hmem
  simpa [Step.isSure] using (resolvedBy_linkSteps h).sure _ hmem

/-- The steps for the links of fit nodes call for nothing if there is no link among the nodes. -/
theorem calls_linkSteps_eq_nil_iff {ns : List Node} (h : ∀ n ∈ ns, n.isFit = true) :
    Step.calls (linkSteps ns) = [] ↔ ¬ Link.HasLink ns := by
  obtain ⟨references, hrefs, hcalls⟩ := (resolvedBy_linkSteps h).calls
  have hlength := hrefs.length_eq
  have hfates : Step.calls (linkSteps ns) = [] ↔
      (Link.fates (Link.items (mergeText ns))).filterMap Link.Fate.inside? = [] := by
    rw [hcalls, List.map_eq_nil_iff, ← List.length_eq_zero_iff, ← List.length_eq_zero_iff, hlength]
  rw [hfates, Link.filterMap_inside?_eq_nil_iff, mergeText_eq_joinRuns]
  unfold Link.HasLink
  simp only [not_exists, not_and, Bool.not_eq_true]

/-- Whether the steps for the links of fit nodes call for anything can be told by the texts among
the nodes. -/
theorem calls_linkSteps_of_textPattern {ns ms : List Node} (hns : ∀ n ∈ ns, n.isFit = true)
    (hms : ∀ m ∈ ms, m.isFit = true) (h : textPattern ns = textPattern ms) :
    Step.calls (linkSteps ns) = [] ↔ Step.calls (linkSteps ms) = [] := by
  have hcalls {ks : List Node} (hks : ∀ k ∈ ks, k.isFit = true) :
      Step.calls (linkSteps ks) = (Link.references ks).map .link :=
    Step.calls_ofGroup (not_fail_mem_linkSteps hks)
  have hlength := (Link.alike_references h).length_eq
  rw [hcalls hns, hcalls hms, List.map_eq_nil_iff, List.map_eq_nil_iff,
    ← List.length_eq_zero_iff, ← List.length_eq_zero_iff, hlength]

/-! ## Containers that a walk goes into -/

/-- Whether a place is reached: the node there has children, and neither it nor any node around it is
an element that is excluded. -/
def IsReached (tags : Tags) (t : Node) (p : Place) : Prop :=
  (∃ n, at? p t = some n ∧ n.children ≠ []) ∧ ∀ q, q <+: p → ∀ head info children,
    at? q t = some (.node head info children) → tags.skips head = false

/-- A walk of a well-formed tree goes into a node that has children and is not excluded. -/
theorem admits_iff_of_wellFormed {tags : Tags} {head : Head} {info : Info} {children : List Node}
    (h : (Node.node head info children).wellFormed = true) :
    tags.admits (.node head info children) = true ↔ children ≠ [] ∧ tags.skips head = false := by
  obtain ⟨hr, hlisted, -⟩ := wellFormed_node.mp h
  have hcontainer : children ≠ [] → head.isContainer = true := by
    intro hne
    have hl := hlisted.resolve_right hne
    cases head with
    | irregular traits => simp [Head.isRegular] at hr
    | other type listed =>
      show (Kinds.single .other).within .containers = true
      decide
    | _ => exact hl
  cases children with
  | nil => simp [Tags.admits, hasChildren]
  | cons child rest => simp [Tags.admits, hasChildren, hcontainer]

/-- The children of a well-formed node are well formed. -/
theorem wellFormed_of_getElem? {n child : Node} {i : Nat} (h : n.wellFormed = true)
    (hchild : n.children[i]? = some child) : child.wellFormed = true := by
  obtain ⟨head, info, children, rfl, -⟩ := exists_of_wellFormed h
  exact allWellFormed_iff.mp (wellFormed_node.mp h).2.2 child (List.mem_of_getElem? hchild)

/-- The nodes in a well-formed tree are well formed. -/
theorem wellFormed_of_at? {p : Place} {t n : Node} (ht : t.wellFormed = true)
    (h : at? p t = some n) : n.wellFormed = true := by
  induction p generalizing t with
  | nil => exact Option.some.inj h ▸ ht
  | cons i p ih =>
    obtain ⟨child, hchild, hat⟩ := at?_cons.mp h
    exact ih (wellFormed_of_getElem? ht hchild) hat

/-- The places that a walk of a well-formed tree goes to are those that are reached. -/
theorem mem_reached_iff_isReached {tags : Tags} {p : Place} {t : Node} (ht : t.wellFormed = true) :
    p ∈ t.reached tags ↔ t.IsReached tags p := by
  induction p generalizing t with
  | nil =>
    obtain ⟨head, info, children, rfl, -⟩ := exists_of_wellFormed ht
    rw [mem_reached, admits_iff_of_wellFormed ht]
    constructor
    · rintro ⟨⟨hne, hskips⟩, -⟩
      refine ⟨⟨_, rfl, hne⟩, fun q hq head' info' children' hat => ?_⟩
      obtain rfl := List.prefix_nil.mp hq
      obtain ⟨rfl, rfl, rfl⟩ : head = head' ∧ info = info' ∧ children = children' := by
        simpa [at?] using hat
      exact hskips
    · rintro ⟨⟨n, hat, hne⟩, hskips⟩
      obtain rfl := Option.some.inj hat
      exact ⟨⟨hne, hskips [] List.nil_prefix head info children rfl⟩, .inl rfl⟩
  | cons i p ih =>
    obtain ⟨head, info, children, rfl, -⟩ := exists_of_wellFormed ht
    rw [mem_reached, admits_iff_of_wellFormed ht]
    constructor
    · rintro ⟨⟨-, hskips⟩, hnil | ⟨j, child, q, heq, hchild, hq⟩⟩
      · simp at hnil
      · obtain ⟨rfl, rfl⟩ : i = j ∧ p = q := by simpa using heq
        obtain ⟨⟨n, hat, hne⟩, hbelow⟩ := (ih (wellFormed_of_getElem? ht hchild)).mp hq
        refine ⟨⟨n, at?_cons.mpr ⟨child, hchild, hat⟩, hne⟩, ?_⟩
        intro r hr head' info' children' hat'
        -- A container on the way is this one, or it is on the way from the child.
        cases r with
        | nil =>
          obtain ⟨rfl, rfl, rfl⟩ : head = head' ∧ info = info' ∧ children = children' := by
            simpa [at?] using hat'
          exact hskips
        | cons k r =>
          obtain ⟨rfl, hrp⟩ := List.cons_prefix_cons.mp hr
          obtain ⟨child', hchild', hat'⟩ := at?_cons.mp hat'
          obtain rfl : child = child' := Option.some.inj (hchild.symm.trans hchild')
          exact hbelow r hrp head' info' children' hat'
    · rintro ⟨⟨n, hat, hne⟩, hskips⟩
      obtain ⟨child, hchild, hat⟩ := at?_cons.mp hat
      have hnonempty : children ≠ [] := by
        rintro rfl
        simp [Node.children] at hchild
      refine ⟨⟨hnonempty, hskips [] List.nil_prefix head info children rfl⟩, .inr ?_⟩
      refine ⟨i, child, p, rfl, hchild, (ih (wellFormed_of_getElem? ht hchild)).mpr ?_⟩
      refine ⟨⟨n, hat, hne⟩, fun r hr head' info' children' hat' => ?_⟩
      exact hskips (i :: r) (List.cons_prefix_cons.mpr ⟨rfl, hr⟩) head' info' children'
        (at?_cons.mpr ⟨child, hchild, hat'⟩)

/-! ## Idle trees -/

/-- Some container that is reached needs a resolver: it has a text with a template as a child, or a
link among its children. -/
def Needs (tags : Tags) (t : Node) : Prop :=
  ∃ p n, t.IsReached tags p ∧ at? p t = some n ∧
    (HasTemplate n.children ∨ Link.HasLink n.children)

mutual

/-- Whether a walk of a tree has nothing to resolve. -/
def idle (tags : Tags) : Node → Bool
  | .stray _ => true
  | .node head info children =>
    !tags.admits (.node head info children) ||
      (idleAmong tags children && (Step.calls (linkSteps children)).isEmpty)

/-- Whether a walk has nothing to resolve in the texts among children, nor in the containers. -/
def idleAmong (tags : Tags) : List Node → Bool
  | [] => true
  | child :: rest => child.templates.isEmpty && idle tags child && idleAmong tags rest

end

section Idle

variable {tags : Tags} {n : Node} {head : Head} {info : Info} {children : List Node}

/-- There is nothing to resolve in what a walk does not go into. -/
theorem idle_of_not_admits (h : tags.admits n = false) : n.idle tags = true := by
  cases n with
  | stray value => rw [idle]
  | node head info children => rw [idle, h, Bool.not_false, Bool.true_or]

/-- There is nothing to resolve in a container if there is nothing in its children, nor a link among
them. -/
theorem idle_of_admits (h : tags.admits (.node head info children) = true) :
    (Node.node head info children).idle tags = true ↔
      idleAmong tags children = true ∧ Step.calls (linkSteps children) = [] := by
  rw [idle, h, Bool.not_true, Bool.false_or, Bool.and_eq_true, List.isEmpty_iff]

/-- There is nothing to resolve in children if there is nothing in each of them. -/
theorem idleAmong_iff {ns : List Node} :
    idleAmong tags ns = true ↔ ∀ n ∈ ns, n.templates = [] ∧ n.idle tags = true := by
  induction ns with
  | nil => simp [idleAmong]
  | cons n rest ih => simp [idleAmong, ih]

/-- Well-formed nodes are fit. -/
theorem isFit_of_allWellFormed {ns : List Node} (h : allWellFormed ns = true) :
    ∀ n ∈ ns, n.isFit = true := fun n hn => isFit_of_wellFormed (allWellFormed_iff.mp h n hn)

/-- There is nothing to resolve in a tree if there is neither a template nor a link in any container
that a walk goes into. -/
theorem idle_iff_forall_reached {n : Node} (h : n.wellFormed = true) :
    n.idle tags = true ↔ ∀ p ∈ n.reached tags, ∀ m, at? p n = some m →
      ¬ HasTemplate m.children ∧ ¬ Link.HasLink m.children := by
  cases n with
  | stray value => simp [wellFormed] at h
  | node head info children =>
    cases hadmits : tags.admits (.node head info children) with
    | false => simp [idle_of_not_admits hadmits, reached_of_not_admits hadmits]
    | true =>
      obtain ⟨-, -, hchildren⟩ := wellFormed_node.mp h
      have hbelow : ∀ child ∈ children, (child.idle tags = true ↔
          ∀ p ∈ child.reached tags, ∀ m, at? p child = some m →
            ¬ HasTemplate m.children ∧ ¬ Link.HasLink m.children) :=
        fun child hchild => idle_iff_forall_reached (allWellFormed_iff.mp hchildren child hchild)
      rw [idle_of_admits hadmits, idleAmong_iff,
        calls_linkSteps_eq_nil_iff (isFit_of_allWellFormed hchildren)]
      constructor
      · rintro ⟨hall, hlink⟩ p hp m hat
        obtain ⟨-, rfl | ⟨i, child, q, rfl, hchild, hq⟩⟩ := mem_reached.mp hp
        · obtain rfl := Option.some.inj hat
          exact ⟨not_hasTemplate_iff.mpr fun n hn => (hall n hn).1, hlink⟩
        · obtain ⟨child', hchild', hat⟩ := at?_cons.mp hat
          obtain rfl : child = child' := Option.some.inj (hchild.symm.trans hchild')
          have hmem := List.mem_of_getElem? hchild
          exact (hbelow child hmem).mp (hall child hmem).2 q hq m hat
      · intro hall
        obtain ⟨htemplate, hlink⟩ := hall [] (mem_reached.mpr ⟨hadmits, .inl rfl⟩) _ rfl
        refine ⟨fun child hchild => ⟨not_hasTemplate_iff.mp htemplate child hchild, ?_⟩, hlink⟩
        refine (hbelow child hchild).mpr fun p hp m hat => ?_
        obtain ⟨i, hi⟩ := List.mem_iff_getElem?.mp hchild
        exact hall (i :: p) (mem_reached.mpr ⟨hadmits, .inr ⟨i, child, p, rfl, hi, hp⟩⟩) m
          (at?_cons.mpr ⟨child, hi, hat⟩)

/-- A well-formed tree needs a resolver unless there is nothing to resolve in it. -/
theorem needs_iff {t : Node} (ht : t.wellFormed = true) :
    t.Needs tags ↔ t.idle tags = false := by
  rw [← Bool.not_eq_true, idle_iff_forall_reached ht]
  unfold Needs
  constructor
  · rintro ⟨p, n, hp, hat, hneed⟩ hnone
    obtain ⟨htemplate, hlink⟩ := hnone p ((mem_reached_iff_isReached ht).mpr hp) n hat
    exact hneed.elim htemplate hlink
  · intro hnot
    by_contra hnone
    refine hnot fun p hp n hat => ⟨fun htemplate => ?_, fun hlink => ?_⟩
    · exact hnone ⟨p, n, (mem_reached_iff_isReached ht).mp hp, hat, .inl htemplate⟩
    · exact hnone ⟨p, n, (mem_reached_iff_isReached ht).mp hp, hat, .inr hlink⟩

end Idle

/-! ## Scripts of idle trees -/

/-- Trees have the same texts on their top level after a walk without calls. -/
theorem textPattern_settledAll (tags : Tags) (ns : List Node) :
    textPattern (settledAll tags ns) = textPattern ns := by
  unfold textPattern
  induction ns with
  | nil => rw [settledAll]
  | cons n rest ih => rw [settledAll, List.map_cons, List.map_cons, ih, text?_settled]

/-- A container is ended without asking if there is no link among its children. -/
theorem still?_ending {ns : List Node} (h : ∀ n ∈ ns, n.wellFormed = true) :
    (ending ns).still? = if Step.calls (linkSteps ns) = [] then
      some ((mergeText ns).map Link.refresh) else none := by
  have hfit : ∀ n ∈ ns, n.isFit = true := fun n hn => isFit_of_wellFormed (h n hn)
  rw [ending_of_isFit hfit, Script.still?_bind, Script.still?_ofSteps (not_fail_mem_linkSteps hfit)]
  by_cases hcalls : Step.calls (linkSteps ns) = []
  · have hsound : ∀ n ∈ Step.outputs (linkSteps ns) [], n.isSound = true := by
      intro n hn
      rcases Step.mem_outputs hn with ⟨step, hstep, hkept⟩ | ⟨answer, hanswer, -⟩
      · exact (isFit_iff.mp (isFit_kept_linkSteps hfit step hstep n hkept)).1
      · simp at hanswer
    rw [if_pos hcalls, if_pos hcalls, Option.bind_some, merge_of_isSound hsound,
      Script.still?_ofExcept_ok, mergeText_outputs_of_no_calls h hcalls]
  · rw [if_neg hcalls, if_neg hcalls, Option.bind_none]

/-- The expansion of a text with templates asks for them. -/
theorem still?_templateSteps {n : Node} (h : n.templates ≠ []) :
    (Script.ofSteps n.templateSteps).still? = none := by
  have hcalls : Step.calls n.templateSteps ≠ [] := by
    rw [calls_templateSteps]
    simpa using h
  have hfail : ∀ fault, .fail fault ∉ n.templateSteps := by
    intro fault hmem
    obtain ⟨piece, -, hpiece⟩ := List.mem_map.mp hmem
    cases piece <;> simp [Step.ofPiece] at hpiece
  rw [Script.still?_ofSteps hfail, if_neg hcalls]

mutual

/-- A walk of a well-formed tree asks for nothing exactly if there is nothing to resolve in it, and
the tree then settles. -/
theorem still?_script (tags : Tags) : ∀ {n : Node}, n.wellFormed = true →
    (n.script tags).still? = if n.idle tags then some (n.settled tags) else none
  | .stray value, h => by simp [wellFormed] at h
  | .node head info children, h => by
    cases hadmits : tags.admits (.node head info children) with
    | false =>
      rw [script_of_not_admits h hadmits, idle_of_not_admits hadmits, settled_of_not_admits hadmits]
      rfl
    | true =>
      obtain ⟨-, -, hchildren⟩ := wellFormed_node.mp h
      have hsettled := allWellFormed_settledAll tags hchildren
      -- The links among the settled children are those among the given ones.
      have hcalls : Step.calls (linkSteps (settledAll tags children)) = [] ↔
          Step.calls (linkSteps children) = [] :=
        calls_linkSteps_of_textPattern (fun n hn => isFit_of_wellFormed (hsettled n hn))
          (isFit_of_allWellFormed hchildren) (textPattern_settledAll tags children)
      have hidle : (Node.node head info children).idle tags = true ↔
          idleAmong tags children = true ∧ Step.calls (linkSteps children) = [] :=
        idle_of_admits hadmits
      rw [script_of_admits hadmits, Script.still?_under, Script.still?_bind, Script.still?_bind,
        still?_scripts tags hchildren, settled, if_pos hadmits]
      cases hamong : idleAmong tags children with
      | false =>
        have hnot : (Node.node head info children).idle tags = false := by
          rw [← Bool.not_eq_true, hidle, hamong]
          simp
        rw [hnot]
        rfl
      | true =>
        rw [if_pos rfl, Option.bind_some, still?_ending hsettled]
        by_cases hnone : Step.calls (linkSteps children) = []
        · rw [if_pos (hcalls.mpr hnone), if_pos (hidle.mpr ⟨hamong, hnone⟩)]
          rfl
        · rw [if_neg (mt hcalls.mp hnone), if_neg fun h => hnone (hidle.mp h).2]
          rfl

/-- A walk of well-formed children asks for nothing exactly if there is nothing to resolve in them,
and the children then settle. -/
theorem still?_scripts (tags : Tags) : ∀ {ns : List Node}, allWellFormed ns = true →
    (scripts tags ns).still? = if idleAmong tags ns then some (settledAll tags ns) else none
  | [], _ => by
    rw [scripts, idleAmong, settledAll]
    rfl
  | child :: rest, h => by
    rw [allWellFormed, Bool.and_eq_true] at h
    rw [idleAmong, settledAll]
    by_cases ht : child.templates = []
    · rw [scripts_of_no_templates ht, Script.still?_bind, still?_script tags h.1, ht]
      cases child.idle tags with
      | false => rfl
      | true =>
        rw [if_pos rfl, Option.bind_some, Script.still?_bind, still?_scripts tags h.2]
        cases idleAmong tags rest <;> rfl
    · have hfalse : child.templates.isEmpty = false := by simpa using ht
      rw [scripts_of_templates ht, Script.still?_bind, still?_templateSteps ht, hfalse]
      rfl

end

end Node

namespace Context

variable {σ : Type} {ctx : Context σ}

/-- A walk of a well-formed tree comes to its end when all answers are fit. -/
theorem always_script_fit {t : Node} (ht : t.wellFormed = true) (tags : Tags) :
    (t.script tags).Always Fit fun m => m.isFit = true :=
  Node.always_script (fun _ _ h => h) ht

/-- A well-formed tree in which there is nothing to resolve settles, whatever the resolvers are. -/
theorem process_of_idle {t : Node} (ht : t.wellFormed = true) (h : t.idle ctx.excluded = true)
    (st : State σ) : (ctx.process t st).value = t.settled ctx.excluded ∧
      (ctx.process t st).fault = none ∧ (ctx.process t st).state.calls = st.calls := by
  have hstill : (t.script ctx.excluded).still? = some (t.settled ctx.excluded) := by
    rw [Node.still?_script ctx.excluded ht, if_pos h]
  obtain ⟨st', hrun, hcalls⟩ := Script.run_of_still? ctx (always_script_fit ht _) hstill (fresh st)
    (isRegular_of_mem_fresh st)
  have hvisit := ctx.visit_eq_run ht (fresh st) (isRegular_of_mem_fresh st)
  rw [hrun] at hvisit
  rw [process_of_wellFormed ht, hvisit]
  exact ⟨rfl, rfl, hcalls⟩

/-- A well-formed tree that is processed without a call has nothing to resolve. -/
theorem idle_of_no_calls {t : Node} (ht : t.wellFormed = true) {st : State σ}
    (hfault : (ctx.process t st).fault = none) (hcalls : (ctx.process t st).state.calls = st.calls) :
    t.idle ctx.excluded = true := by
  rw [process_of_wellFormed ht] at hfault hcalls
  have hvisit := ctx.visit_eq_run ht (fresh st) (isRegular_of_mem_fresh st)
  cases hrun : (t.script ctx.excluded).run ctx (fresh st) with
  | error fault st' =>
    rw [hrun] at hvisit
    simp [hvisit.1] at hfault
  | ok m st' =>
    rw [hrun] at hvisit
    rw [hvisit] at hcalls
    have hstill := Script.still?_of_run hrun hcalls
    rw [Node.still?_script ctx.excluded ht] at hstill
    by_contra hidle
    simp [hidle] at hstill

/-- With resolvers that cannot be called, processing a well-formed tree makes no call. It fails, as a
resolver is not callable, exactly if some container that is reached has a text with a template as a
child or a link among its children, and otherwise comes to its end. -/
theorem process_of_not_callable (ctx : Context σ) {l v : Value} (hl : ctx.link = .value l)
    (hv : ctx.template = .value v) {t : Node} (ht : t.wellFormed = true) (st : State σ) :
    (((ctx.process t st).fault = some (.notCallable .link l) ∨
        (ctx.process t st).fault = some (.notCallable .template v)) ↔ t.Needs ctx.excluded) ∧
      ((ctx.process t st).fault = none ↔ ¬ t.Needs ctx.excluded) ∧
      (ctx.process t st).state.calls = st.calls := by
  rw [Node.needs_iff ht]
  cases hidle : t.idle ctx.excluded with
  | true =>
    obtain ⟨-, hfault, hcalls⟩ := process_of_idle ht hidle st
    simp [hfault, hcalls]
  | false =>
    have hstill : (t.script ctx.excluded).still? = none := by
      rw [Node.still?_script ctx.excluded ht, hidle]
      rfl
    obtain ⟨fault, st', hrun, hcalls, hfault⟩ := Script.error_of_still? hl hv
      (always_script_fit ht _) hstill (fresh st) (isRegular_of_mem_fresh st)
    have hvisit := ctx.visit_eq_run ht (fresh st) (isRegular_of_mem_fresh st)
    rw [hrun] at hvisit
    rw [process_of_wellFormed ht, hvisit.1, hvisit.2]
    exact ⟨by simpa using hfault, by simp, hcalls⟩

/-- A context without a link resolver, whose template resolver is a number. -/
def deaf : Context Unit where
  link := .value .null
  template := .value (.int 3)

/-- A document with a link from one text to another, and a template that is not reached. -/
def linkAcross : Node :=
  .root [.text "a ]] [[b", .element "code" [] [.text "::c::"], .text "|d]] [["]

/-- A link that begins in one text and ends in another needs a resolver. Templates in code and
delimiters that make no link need none. -/
theorem process_of_not_callable_linkAcross :
    linkAcross.wellFormed = true ∧ linkAcross.Needs deaf.excluded ∧
      ((deaf.process linkAcross { world := () }).fault = some (.notCallable .link .null) ∨
        (deaf.process linkAcross { world := () }).fault =
          some (.notCallable .template (.int 3))) ∧
      strayDelimiters.wellFormed = true ∧
      (deaf.process strayDelimiters { world := () }).fault = none := by
  have hacross : linkAcross.wellFormed = true := by decide
  have hstray : strayDelimiters.wellFormed = true := by decide
  have hneeds : linkAcross.Needs deaf.excluded := by
    rw [Node.needs_iff hacross]
    decide +kernel
  have hidle : ¬ strayDelimiters.Needs deaf.excluded := by
    rw [Node.needs_iff hstray]
    decide +kernel
  obtain ⟨hfails, -⟩ := process_of_not_callable deaf rfl rfl hacross { world := () }
  obtain ⟨-, hends, -⟩ := process_of_not_callable deaf rfl rfl hstray { world := () }
  exact ⟨hacross, hneeds, hfails.mpr hneeds, hstray, hends.mpr hidle⟩

end Context

end Transclude
