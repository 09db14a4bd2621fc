import Transclude.Proofs.Template.Leftmost
import Transclude.Proofs.Template.Parts

/-!
# Between templates

The templates that are found in a text leave gaps: before the first of them, between any two, and after
the last. Together with the templates, the gaps are the text (`alternate_gaps`), and no template is
found in a gap, also not where a template was cut off (`scan_of_mem_gaps`).
-/

namespace Transclude

/-- The lists of one row and those of another by turns, beginning with the first row. -/
def alternate {α : Type} : List (List α) → List (List α) → List α
  | [], _ => []
  | gap :: gaps, fillings => gap ++ (fillings.headD [] ++ alternate gaps fillings.tail)

/-- What alternates has the members of the two rows. -/
theorem forall_mem_alternate {α : Type} {P : α → Prop} {gaps fillings : List (List α)}
    (hgaps : ∀ gap ∈ gaps, ∀ a ∈ gap, P a) (hfillings : ∀ filling ∈ fillings, ∀ a ∈ filling, P a) :
    ∀ a ∈ alternate gaps fillings, P a := by
  induction gaps generalizing fillings with
  | nil => simp [alternate]
  | cons gap gaps ih =>
    obtain ⟨hgap, hlater⟩ := List.forall_mem_cons.mp hgaps
    rw [alternate, List.forall_mem_append, List.forall_mem_append]
    cases fillings with
    | nil => exact ⟨hgap, by simp, ih hlater (by simp)⟩
    | cons filling fillings =>
      obtain ⟨hfilling, hothers⟩ := List.forall_mem_cons.mp hfillings
      exact ⟨hgap, hfilling, ih hlater hothers⟩

/-- What is made of the members of rows that alternate is made of the rows. -/
theorem flatMap_alternate {α β : Type} (f : α → List β) (gaps fillings : List (List α)) :
    (alternate gaps fillings).flatMap f =
      alternate (gaps.map (List.flatMap f)) (fillings.map (List.flatMap f)) := by
  induction gaps generalizing fillings with
  | nil => rfl
  | cons gap gaps ih =>
    rw [alternate, List.flatMap_append, List.flatMap_append, ih, List.map_cons, alternate,
      List.map_tail]
    cases fillings <;> rfl

namespace Template

/-- The gaps that templates leave in a text from a place on. -/
def gapsFrom (text : List Char) (place : Nat) : List Occurrence → List (List Char)
  | [] => [text.drop place]
  | o :: rest => text.extract place o.start :: gapsFrom text o.stop rest

/-- The gaps that the templates of a text leave in it. -/
def gaps (text : String) : List (List Char) := gapsFrom text.toList 0 (scan text)

/-- What is left of a text from a place on goes up to the end of the text. -/
theorem drop_eq_extract (text : List Char) (place : Nat) :
    text.drop place = text.extract place text.length := by
  rw [List.extract_eq_take_drop, List.take_of_length_le (by simp)]

/-- There is one gap more than there are templates. -/
theorem length_gapsFrom (text : List Char) (place : Nat) (os : List Occurrence) :
    (gapsFrom text place os).length = os.length + 1 := by
  induction os generalizing place with
  | nil => rfl
  | cons o rest ih => rw [gapsFrom, List.length_cons, List.length_cons, ih]

/-- A template is a template also with something before it and after it. -/
theorem TemplateAt.around {cs : List Char} {start stop : Nat} (h : TemplateAt cs start stop)
    (front back : List Char) :
    TemplateAt (front ++ cs ++ back) (front.length + start) (front.length + stop) ∧
      start < cs.length := by
  obtain ⟨w, rest, hopened, ⟨hline, after, rfl⟩, hinner, rfl⟩ := templateAt_iff.mp h
  have hlength := congrArg List.length hopened
  simp only [List.length_drop, List.length_cons] at hlength
  have hstart : start < cs.length := by omega
  refine ⟨templateAt_iff.mpr ⟨w, w ++ ':' :: ':' :: after ++ back, ?_,
    ⟨hline, after ++ back, by simp⟩, hinner, by omega⟩, hstart⟩
  rw [List.append_assoc, List.drop_append, List.drop_eq_nil_of_le (by omega), List.nil_append,
    Nat.add_sub_cancel_left, List.drop_append_of_le_length hstart.le, hopened]
  rfl

/-- In a part of a text only templates of the text are found. -/
theorem TemplateAt.of_extract {text : List Char} {place start stop last : Nat}
    (h : TemplateAt (text.extract place last) start stop) :
    TemplateAt text (place + start) (place + stop) ∧ place + start < last := by
  have hpart := (h.around [] []).2
  have hlength := hpart
  rw [List.extract_eq_take_drop, List.length_take, List.length_drop] at hlength
  have hfront : (text.take place).length = place := by
    rw [List.length_take]
    omega
  have hwhole : text.take place ++ text.extract place last ++ text.drop last = text := by
    rw [List.append_assoc, extract_append_drop (by omega), List.take_append_drop]
  have hat := (h.around (text.take place) (text.drop last)).1
  rw [hwhole, hfront] at hat
  exact ⟨hat, by omega⟩

namespace Leftmost

variable {text : List Char} {place : Nat} {os : List Occurrence}

/-- What is found is a template. -/
theorem exists_templateAt (h : Leftmost text place os) : ∀ o ∈ os, ∃ start stop,
    TemplateAt text start stop ∧ o = Occurrence.between text start stop := by
  induction h with
  | done hnone => simp
  | @next place start stop os hplace hat hleft hshort hrest ih =>
    exact List.forall_mem_cons.mpr ⟨⟨start, stop, hat, rfl⟩, ih⟩

/-- The gaps and the templates are what a text is from a place on. -/
theorem alternate_gapsFrom (h : Leftmost text place os) :
    alternate (gapsFrom text place os) (os.map fun o => text.extract o.start o.stop) =
      text.drop place := by
  induction h with
  | done hnone => simp [gapsFrom, alternate]
  | @next place start stop os hplace hat hleft hshort hrest ih =>
    have hstop : start ≤ stop := by
      have hlt := hat.1
      omega
    rw [gapsFrom, List.map_cons, alternate, List.headD_cons, List.tail_cons]
    change text.extract place start ++ (text.extract start stop ++
      alternate (gapsFrom text stop os) _) = _
    rw [ih, extract_append_drop hstop, extract_append_drop hplace]

/-- There is no template in a gap. -/
theorem not_templateAt_of_mem_gapsFrom (h : Leftmost text place os) :
    ∀ gap ∈ gapsFrom text place os, ∀ start stop, ¬ TemplateAt gap start stop := by
  induction h with
  | @done place hnone =>
    intro gap hgap start stop hat
    rw [gapsFrom, List.mem_singleton] at hgap
    subst hgap
    rw [drop_eq_extract] at hat
    exact hnone _ _ (by omega) hat.of_extract.1
  | @next place first last os hplace hat hleft hshort hrest ih =>
    refine List.forall_mem_cons.mpr ⟨fun start stop hgap => ?_, ih⟩
    -- A template in the gap would start before the one that was found.
    obtain ⟨hat, hlt⟩ := hgap.of_extract
    exact absurd (hleft _ _ (by omega) hat) (Nat.not_le.mpr hlt)

end Leftmost

/-- No template is found in a gap. -/
theorem scan_of_mem_gaps {text : String} : ∀ gap ∈ gaps text, scan (String.ofList gap) = [] := by
  intro gap hgap
  rw [scan_eq_nil_iff, String.toList_ofList]
  exact (leftmost_scan text).not_templateAt_of_mem_gapsFrom gap hgap

end Template

end Transclude
