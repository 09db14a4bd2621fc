import Transclude.Tree.Node
import Mathlib.Data.List.Infix

/-!
# Places in a tree

A place is the list of the indexes of the children on the way from the top. This module is about
trees in which containers get new children one after the other: `Becomes` says that a tree turns into
another in this way, and the lemmas about it what is then at a place.
-/

namespace Transclude.Node

/-- A place in a tree: the indexes of the children on the way to it from the top. -/
abbrev Place := List Nat

/-- A container that is finished: its place, and the children that it is given. -/
abbrev Finish := Place × List Node

/-- What is finished in the child at an index, as seen from the parent. -/
def Finish.under (i : Nat) (f : Finish) : Finish := (i :: f.1, f.2)

/-- The node at a place. -/
def at? : Place → Node → Option Node
  | [], n => some n
  | i :: p, n => n.children[i]?.bind (at? p)

/-- Gives the node at a place new children. -/
def giveChildren (new : List Node) : Place → Node → Node
  | _, .stray value => .stray value
  | [], .node head info _ => .node head info new
  | i :: p, .node head info children =>
    .node head info (children.modify i (giveChildren new p))

/-- What a node is and carries, without its children. -/
def label : Node → Option (Head × Info)
  | .node head info _ => some (head, info)
  | .stray _ => none

/-- A node with its child list: what it is, and what its children are, without theirs. -/
def shell (n : Node) : Option (Head × Info) × List (Option (Head × Info)) :=
  (n.label, n.children.map label)

/-! ## One change -/

/-- A node stays what it is when a node at it or below it gets new children. -/
theorem label_giveChildren (new : List Node) (p : Place) (n : Node) :
    (n.giveChildren new p).label = n.label := by
  cases n with
  | stray value => cases p <;> rfl
  | node head info children => cases p <;> rfl

/-- A node that lies in another is in one of its children. -/
theorem at?_cons {i : Nat} {p : Place} {n m : Node} :
    at? (i :: p) n = some m ↔ ∃ child, n.children[i]? = some child ∧ at? p child = some m := by
  simp [at?, Option.bind_eq_some_iff]

/-- Below the top, new children are given in one child. -/
theorem children_giveChildren_cons (new : List Node) (i : Nat) (p : Place) (n : Node) :
    (n.giveChildren new (i :: p)).children = n.children.modify i (giveChildren new p) := by
  cases n <;> simp [giveChildren, children]

/-- The node at a place has the children that it is given. -/
theorem at?_giveChildren_self {p : Place} {n : Node} {head : Head} {info : Info}
    {old : List Node} (h : at? p n = some (.node head info old)) (new : List Node) :
    at? p (n.giveChildren new p) = some (.node head info new) := by
  induction p generalizing n with
  | nil =>
    obtain rfl : n = .node head info old := Option.some.inj h
    rfl
  | cons i p ih =>
    obtain ⟨child, hchild, hat⟩ := at?_cons.mp h
    refine at?_cons.mpr ⟨child.giveChildren new p, ?_, ih hat⟩
    rw [children_giveChildren_cons, List.getElem?_modify_eq, hchild]
    rfl

/-- The node at a place keeps its child list when a node that is not above it gets new children. -/
theorem shell_at?_giveChildren {p q : Place} {n m : Node} (hpq : ¬ p <+: q)
    (h : at? q n = some m) (new : List Node) :
    ∃ m', at? q (n.giveChildren new p) = some m' ∧ m'.shell = m.shell := by
  induction p generalizing n q with
  | nil => exact absurd List.nil_prefix hpq
  | cons i p ih =>
    cases q with
    | nil =>
      obtain rfl : n = m := Option.some.inj h
      -- The change is below: the node has as many children as before, with the same labels.
      refine ⟨_, rfl, ?_⟩
      unfold shell
      rw [label_giveChildren, children_giveChildren_cons]
      congr 1
      apply List.ext_getElem?
      intro j
      by_cases hij : i = j
      · subst hij
        rw [List.getElem?_map, List.getElem?_modify_eq, List.getElem?_map]
        cases n.children[i]? with
        | none => rfl
        | some child => simp [label_giveChildren]
      · rw [List.getElem?_map, List.getElem?_modify_ne _ _ hij, List.getElem?_map]
    | cons j q =>
      obtain ⟨child, hchild, hat⟩ := at?_cons.mp h
      by_cases hij : i = j
      · subst hij
        have hpq' : ¬ p <+: q := fun hp => hpq (List.cons_prefix_cons.mpr ⟨rfl, hp⟩)
        obtain ⟨m', hm', hshell⟩ := ih hpq' hat
        refine ⟨m', at?_cons.mpr ⟨child.giveChildren new p, ?_, hm'⟩, hshell⟩
        rw [children_giveChildren_cons, List.getElem?_modify_eq, hchild]
        rfl
      · -- The places part here, and the other child stays.
        refine ⟨m, at?_cons.mpr ⟨child, ?_, hat⟩, rfl⟩
        rw [children_giveChildren_cons, List.getElem?_modify_ne _ _ hij]
        exact hchild

/-- The node at a place stays when a node neither above it nor below it gets new children. -/
theorem at?_giveChildren_of_apart {p q : Place} (hpq : ¬ p <+: q) (hqp : ¬ q <+: p) (n : Node)
    (new : List Node) : at? q (n.giveChildren new p) = at? q n := by
  induction p generalizing n q with
  | nil => exact absurd List.nil_prefix hpq
  | cons i p ih =>
    cases q with
    | nil => exact absurd List.nil_prefix hqp
    | cons j q =>
      rw [at?, at?, children_giveChildren_cons]
      by_cases hij : i = j
      · subst hij
        have hpq' : ¬ p <+: q := fun hp => hpq (List.cons_prefix_cons.mpr ⟨rfl, hp⟩)
        have hqp' : ¬ q <+: p := fun hq => hqp (List.cons_prefix_cons.mpr ⟨rfl, hq⟩)
        rw [List.getElem?_modify_eq]
        cases n.children[i]? with
        | none => rfl
        | some child => exact ih hpq' hqp' child
      · rw [List.getElem?_modify_ne _ _ hij]

/-! ## Many changes -/

/-- Where the children that a container is given come from: they are its own, or texts, or nodes of
answers. -/
def Sourced (answers : List (List Node)) (own : List Node) (m : Node) : Prop :=
  m ∈ own ∨ m.isText = true ∨ ∃ answer ∈ answers, m ∈ answer

/-- With more answers there is more to take children from. -/
theorem Sourced.mono {answers more : List (List Node)} {own : List Node} {m : Node}
    (h : Sourced answers own m) (hsub : ∀ answer ∈ answers, answer ∈ more) :
    Sourced more own m := by
  rcases h with h | h | ⟨answer, hanswer, h⟩
  · exact .inl h
  · exact .inr (.inl h)
  · exact .inr (.inr ⟨answer, hsub answer hanswer, h⟩)

/-- Answers in front of others are among them all. -/
theorem Sourced.of_front {answers : List (List Node)} {own : List Node} {m : Node}
    (h : Sourced answers own m) (more : List (List Node)) : Sourced (answers ++ more) own m :=
  h.mono fun _ hanswer => List.mem_append_left more hanswer

/-- Answers after others are among them all. -/
theorem Sourced.of_back {more : List (List Node)} {own : List Node} {m : Node}
    (h : Sourced more own m) (answers : List (List Node)) : Sourced (answers ++ more) own m :=
  h.mono fun _ hanswer => List.mem_append_right answers hanswer

/-- The first tree turns into the second when containers are finished one after the other. Each is
given some of the children that it has then, texts, and nodes of answers. -/
inductive Becomes (answers : List (List Node)) : Node → List Finish → Node → Prop
  /-- Nothing is finished. -/
  | nil (n : Node) : Becomes answers n [] n
  /-- A container is finished, and others after it. -/
  | cons {n after : Node} {head : Head} {info : Info} {own : List Node} {f : Finish}
      {rest : List Finish} : at? f.1 n = some (.node head info own) →
      (∀ child ∈ f.2, Sourced answers own child) →
      Becomes answers (n.giveChildren f.2 f.1) rest after → Becomes answers n (f :: rest) after

namespace Becomes

variable {answers more : List (List Node)} {n after last : Node} {fs gs : List Finish}

/-- One container is finished. -/
theorem single {head : Head} {info : Info} {own new : List Node} {p : Place}
    (h : at? p n = some (.node head info own)) (hnew : ∀ child ∈ new, Sourced answers own child) :
    Becomes answers n [(p, new)] (n.giveChildren new p) := .cons h hnew (.nil _)

/-- With more answers a tree turns into the same. -/
theorem mono (h : Becomes answers n fs after) (hsub : ∀ answer ∈ answers, answer ∈ more) :
    Becomes more n fs after := by
  induction h with
  | nil n => exact .nil n
  | cons hat hsourced _ ih =>
    exact .cons hat (fun child hchild => (hsourced child hchild).mono hsub) ih

/-- Answers in front of others are among them all. -/
theorem of_front (h : Becomes answers n fs after) (more : List (List Node)) :
    Becomes (answers ++ more) n fs after :=
  h.mono fun _ hanswer => List.mem_append_left more hanswer

/-- Answers after others are among them all. -/
theorem of_back (h : Becomes more n fs after) (answers : List (List Node)) :
    Becomes (answers ++ more) n fs after :=
  h.mono fun _ hanswer => List.mem_append_right answers hanswer

/-- More containers are finished after some. -/
theorem append (h : Becomes answers n fs after) (hmore : Becomes answers after gs last) :
    Becomes answers n (fs ++ gs) last := by
  induction h with
  | nil n => exact hmore
  | cons hat hsourced _ ih => exact .cons hat hsourced (ih hmore)

/-- What is finished in a child is finished in the parent. -/
theorem under (h : Becomes answers n fs after) (head : Head) (info : Info)
    (front back : List Node) :
    Becomes answers (.node head info (front ++ n :: back)) (fs.map (Finish.under front.length))
      (.node head info (front ++ after :: back)) := by
  induction h with
  | nil n => exact .nil _
  | @cons n after _ _ _ f rest hat hsourced _ ih =>
    have hchild : (Node.node head info (front ++ n :: back)).children[front.length]? = some n := by
      simp [children]
    have hgive : (Node.node head info (front ++ n :: back)).giveChildren f.2
        (front.length :: f.1) = .node head info (front ++ n.giveChildren f.2 f.1 :: back) := by
      rw [giveChildren, List.modify_eq_take_drop]
      simp [List.modifyHead]
    refine .cons (at?_cons.mpr ⟨n, hchild, hat⟩) hsourced ?_
    rw [Finish.under, hgive]
    exact ih

/-- A child changes, and the children after it change with other answers. -/
theorem cons_children {m m' : Node} {ns ns' : List Node} {i : Nat} (h : Becomes answers m fs m')
    (hrest : ∀ (head : Head) (info : Info) (front : List Node), front.length = i + 1 →
      Becomes more (.node head info (front ++ ns)) gs (.node head info (front ++ ns')))
    (head : Head) (info : Info) {front : List Node} (hfront : front.length = i) :
    Becomes (answers ++ more) (.node head info (front ++ m :: ns)) (fs.map (Finish.under i) ++ gs)
      (.node head info (front ++ m' :: ns')) := by
  have hchild := h.under head info front ns
  have hothers := hrest head info (front ++ [m']) (by simp [hfront])
  rw [hfront] at hchild
  simp only [List.append_assoc, List.singleton_append] at hothers
  exact (hchild.of_front more).append (hothers.of_back answers)

/-- A child stays, and the children after it change. -/
theorem stay_children {ns ns' : List Node} {i : Nat}
    (hrest : ∀ (head : Head) (info : Info) (front : List Node), front.length = i + 1 →
      Becomes more (.node head info (front ++ ns)) gs (.node head info (front ++ ns')))
    (answers : List (List Node)) (m : Node) (head : Head) (info : Info) {front : List Node}
    (hfront : front.length = i) :
    Becomes (answers ++ more) (.node head info (front ++ m :: ns)) gs
      (.node head info (front ++ m :: ns')) :=
  cons_children (.nil m) hrest head info hfront

/-- A node above which nothing is finished, and which is not finished itself, keeps its child
list. -/
theorem shell_at? (h : Becomes answers n fs after) {q : Place} {m : Node}
    (hm : at? q n = some m) (hfs : ∀ f ∈ fs, ¬ f.1 <+: q) :
    ∃ m', at? q after = some m' ∧ m'.shell = m.shell := by
  induction h generalizing m with
  | nil n => exact ⟨m, hm, rfl⟩
  | @cons n after _ _ _ f rest _ _ _ ih =>
    obtain ⟨m₁, hm₁, hshell₁⟩ := shell_at?_giveChildren (hfs f (by simp)) hm f.2
    obtain ⟨m₂, hm₂, hshell₂⟩ := ih hm₁ fun g hg => hfs g (by simp [hg])
    exact ⟨m₂, hm₂, hshell₂.trans hshell₁⟩

/-- A node stays when nothing is finished that is above it, below it, or the node itself. -/
theorem at?_eq (h : Becomes answers n fs after) {q : Place}
    (hfs : ∀ f ∈ fs, ¬ f.1 <+: q ∧ ¬ q <+: f.1) : at? q after = at? q n := by
  induction h with
  | nil n => rfl
  | @cons n after _ _ _ f rest _ _ _ ih =>
    obtain ⟨hf, hf'⟩ := hfs f (by simp)
    rw [ih fun g hg => hfs g (by simp [hg]), at?_giveChildren_of_apart hf hf']

/-- A node that is finished has the children that it was given, if nothing above it is finished
as well, and nothing below it later. -/
theorem children_at? (h : Becomes answers n fs after) {f : Finish} (hf : f ∈ fs)
    (horder : fs.Pairwise fun f g => ¬ f.1 <+: g.1)
    (htop : ∀ g ∈ fs, g.1 <+: f.1 → g.1 = f.1) :
    ∃ m, at? f.1 after = some m ∧ m.children = f.2 := by
  induction h with
  | nil n => simp at hf
  | @cons n after _ _ _ g rest hat _ hrest ih =>
    obtain ⟨hbefore, hrestorder⟩ := List.pairwise_cons.mp horder
    rcases List.mem_cons.mp hf with rfl | hf
    · -- Later containers are neither above this one nor below it.
      have hapart : ∀ g ∈ rest, ¬ g.1 <+: f.1 ∧ ¬ f.1 <+: g.1 := by
        intro g hg
        refine ⟨fun hgf => hbefore g hg ?_, hbefore g hg⟩
        rw [htop g (by simp [hg]) hgf]
      rw [at?_eq hrest hapart]
      exact ⟨_, at?_giveChildren_self hat f.2, rfl⟩
    · exact ih hf hrestorder fun g' hg' => htop g' (by simp [hg'])

end Becomes

end Transclude.Node
