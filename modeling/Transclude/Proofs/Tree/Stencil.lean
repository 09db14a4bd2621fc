import Transclude.Proofs.Tree.Place

/-!
# Stencils of trees

A stencil is a tree in which some nodes are left open, each with a number. Filled with a list of
nodes it is a tree. The trees in which one node has other children are the fillings of one stencil
(`exists_stencil_giveChildren`).

A family is a function of a choice, such as the choice of the node that a stencil is filled with. A
family of lists is aligned if the lists consist of families of members, so that they are alike in
length whatever is chosen.
-/

namespace Transclude

/-- A tree in which nodes are left open. -/
inductive Stencil where
  /-- A node. -/
  | node (head : Head) (info : Info) (children : List Stencil)
  /-- A plain value in place of a node. -/
  | stray (value : Value)
  /-- A node that is left open, with its number. -/
  | given (i : Nat)
deriving Inhabited, Repr

namespace Stencil

mutual

/-- The tree that a stencil becomes when it is filled with nodes. There are nodes for all numbers
unless the stencil asks for too many. -/
def fill (nodes : List Node) : Stencil → Node
  | .node head info children => .node head info (fillAll nodes children)
  | .stray value => .stray value
  | .given i => nodes.getD i (.stray .null)

/-- The trees that some stencils become. -/
def fillAll (nodes : List Node) : List Stencil → List Node
  | [] => []
  | o :: rest => fill nodes o :: fillAll nodes rest

end

mutual

/-- The stencil that is left when the open nodes of a stencil are replaced by stencils. -/
def subst (os : List Stencil) : Stencil → Stencil
  | .node head info children => .node head info (substAll os children)
  | .stray value => .stray value
  | .given i => os.getD i (.stray .null)

/-- The stencils that are left of some. -/
def substAll (os : List Stencil) : List Stencil → List Stencil
  | [] => []
  | o :: rest => subst os o :: substAll os rest

end

/-- Stencils are filled one by one. -/
theorem fillAll_eq_map (nodes : List Node) (os : List Stencil) :
    fillAll nodes os = os.map (fill nodes) := by
  induction os with
  | nil => rw [fillAll, List.map_nil]
  | cons o rest ih => rw [fillAll, ih, List.map_cons]

/-- As many trees come of stencils as there are stencils. -/
theorem isEmpty_fillAll (nodes : List Node) (os : List Stencil) :
    (fillAll nodes os).isEmpty = os.isEmpty := by
  rw [fillAll_eq_map, List.isEmpty_map]

mutual

/-- Filling what is left of a stencil is filling it with filled stencils. -/
theorem fill_subst (nodes : List Node) (os : List Stencil) :
    ∀ o : Stencil, (o.subst os).fill nodes = o.fill (os.map (fill nodes))
  | .node head info children => by
    rw [subst, fill, fill, fillAll_substAll nodes os children]
  | .stray value => by rw [subst, fill, fill]
  | .given i => by
    rw [subst, fill, List.getD_eq_getElem?_getD, List.getD_eq_getElem?_getD, List.getElem?_map]
    cases os[i]? with
    | none => rfl
    | some o => rfl

/-- Filling what is left of stencils is filling them with filled stencils. -/
theorem fillAll_substAll (nodes : List Node) (os : List Stencil) :
    ∀ rest : List Stencil, fillAll nodes (substAll os rest) = fillAll (os.map (fill nodes)) rest
  | [] => by rw [substAll, fillAll, fillAll]
  | o :: rest => by
    rw [substAll, fillAll, fillAll, fill_subst nodes os o, fillAll_substAll nodes os rest]

end

end Stencil

namespace Node

mutual

/-- A tree as a stencil in which nothing is left open. -/
def stencil : Node → Stencil
  | .node head info children => .node head info (stencils children)
  | .stray value => .stray value

/-- Some trees as stencils. -/
def stencils : List Node → List Stencil
  | [] => []
  | n :: rest => stencil n :: stencils rest

end

mutual

/-- Where nothing is left open, filling changes nothing. -/
theorem fill_stencil (nodes : List Node) : ∀ n : Node, n.stencil.fill nodes = n
  | .node head info children => by rw [stencil, Stencil.fill, fillAll_stencils nodes children]
  | .stray value => by rw [stencil, Stencil.fill]

/-- Where nothing is left open in trees, filling changes nothing. -/
theorem fillAll_stencils (nodes : List Node) :
    ∀ ns : List Node, Stencil.fillAll nodes (stencils ns) = ns
  | [] => by rw [stencils, Stencil.fillAll]
  | n :: rest => by
    rw [stencils, Stencil.fillAll, fill_stencil nodes n, fillAll_stencils nodes rest]

end

/-- A node that is given the children that it has stays as it is. -/
theorem giveChildren_self {p : Place} {t : Node} {head : Head} {info : Info} {own : List Node}
    (h : at? p t = some (.node head info own)) : t.giveChildren own p = t := by
  induction p generalizing t with
  | nil =>
    obtain rfl : t = .node head info own := Option.some.inj h
    rfl
  | cons i p ih =>
    obtain ⟨child, hchild, hat⟩ := at?_cons.mp h
    cases t with
    | stray value => rfl
    | node head' info' children =>
      rw [giveChildren]
      congr 1
      refine List.ext_getElem? fun j => ?_
      by_cases hij : i = j
      · subst hij
        have hchild : children[i]? = some child := hchild
        rw [List.getElem?_modify_eq, hchild]
        exact congrArg some (ih hat)
      · rw [List.getElem?_modify_ne _ _ hij]

/-- The trees in which the node at a place has other children are the fillings of one stencil with
that node. -/
theorem exists_stencil_giveChildren {p : Place} {t : Node} {head : Head} {info : Info}
    {own : List Node} (h : at? p t = some (.node head info own)) :
    ∃ o : Stencil, ∀ new, t.giveChildren new p = o.fill [.node head info new] := by
  induction p generalizing t with
  | nil =>
    obtain rfl : t = .node head info own := Option.some.inj h
    exact ⟨.given 0, fun new => rfl⟩
  | cons i p ih =>
    obtain ⟨child, hchild, hat⟩ := at?_cons.mp h
    obtain ⟨o, ho⟩ := ih hat
    cases t with
    | stray value => simp [children] at hchild
    | node head' info' children =>
      -- The other children are closed.
      refine ⟨.node head' info' ((stencils children).set i o), fun new => ?_⟩
      have hall := fillAll_stencils [.node head info new] children
      rw [Stencil.fillAll_eq_map] at hall
      have hmap : children.modify i (giveChildren new p) =
          children.set i (child.giveChildren new p) := by
        rw [List.modify_eq_set_getElem?]
        have hchild : children[i]? = some child := hchild
        rw [hchild]
        rfl
      rw [giveChildren, Stencil.fill, Stencil.fillAll_eq_map, List.map_set, hall, hmap, ho]

end Node

/-! ## Families of lists -/

section Aligned

variable {X α β : Type}

/-- A family of lists whose members are families of a kind. -/
inductive Aligned (R : (X → α) → Prop) : (X → List α) → Prop where
  /-- No members. -/
  | nil : Aligned R fun _ => []
  /-- A member in front of others. -/
  | cons {f : X → α} {fs : X → List α} : R f → Aligned R fs → Aligned R fun x => f x :: fs x

namespace Aligned

variable {R : (X → α) → Prop} {S : (X → β) → Prop} {f : X → α} {fs gs : X → List α}

/-- One member. -/
theorem singleton (h : R f) : Aligned R fun x => [f x] := .cons h .nil

/-- Aligned lists after others. -/
theorem append (h : Aligned R fs) (h' : Aligned R gs) : Aligned R fun x => fs x ++ gs x := by
  induction h with
  | nil => exact h'
  | cons hf _ ih => exact .cons hf ih

/-- Each member becomes aligned members. -/
theorem flatMap {g : α → List β} (hg : ∀ f, R f → Aligned S fun x => g (f x))
    (h : Aligned R fs) : Aligned S fun x => (fs x).flatMap g := by
  induction h with
  | nil => exact .nil
  | cons hf _ ih => exact (hg _ hf).append ih

/-- Each member becomes one. -/
theorem map {g : α → β} (hg : ∀ f, R f → S fun x => g (f x)) (h : Aligned R fs) :
    Aligned S fun x => (fs x).map g := by
  induction h with
  | nil => exact .nil
  | cons hf _ ih => exact .cons (hg _ hf) ih

/-- What holds of the families of members holds of the members. -/
theorem forall_mem {P : α → Prop} (hP : ∀ f, R f → ∀ x, P (f x)) (h : Aligned R fs) :
    ∀ x, ∀ a ∈ fs x, P a := by
  induction h with
  | nil => simp
  | cons hf _ ih => exact fun x => List.forall_mem_cons.mpr ⟨hP _ hf x, ih x⟩

/-- What is made of the members in the same way is described by one list. -/
theorem exists_list {g : X → β → α} (hg : ∀ f, R f → ∃ b, ∀ x, f x = g x b) (h : Aligned R fs) :
    ∃ bs : List β, ∀ x, fs x = bs.map (g x) := by
  induction h with
  | nil => exact ⟨[], fun x => rfl⟩
  | cons hf _ ih =>
    obtain ⟨b, hb⟩ := hg _ hf
    obtain ⟨bs, hbs⟩ := ih
    exact ⟨b :: bs, fun x => by simp only [hb, hbs, List.map_cons]⟩

/-- The same members are there whatever is chosen. -/
theorem const {as : List α} (h : ∀ a ∈ as, R fun _ => a) : Aligned R fun _ : X => as := by
  induction as with
  | nil => exact .nil
  | cons a rest ih =>
    exact .cons (h a (by simp)) (ih fun b hb => h b (by simp [hb]))

end Aligned

end Aligned

end Transclude
