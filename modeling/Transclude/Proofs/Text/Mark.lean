import Mathlib.Data.List.TakeWhile

/-!
# Up to a mark

A text is read up to the first character of another kind: to a bar, to an equals sign, or to whatever
cannot belong to a name. `takeWhile_append_and_dropWhile` is how characters that were written are
found again, and `upTo_mark` what a text is when it is read up to a mark. Where texts are written with
marks between them, there is nothing else (`mem_intercalate`).
-/

namespace Transclude.Text

/-- A character of texts with marks between them is one of the marks or stands in one of the texts. -/
theorem mem_intercalate {marks : List Char} {texts : List (List Char)} {c : Char}
    (h : c ∈ marks.intercalate texts) : c ∈ marks ∨ ∃ cs ∈ texts, c ∈ cs := by
  induction texts with
  | nil => simp at h
  | cons cs rest ih =>
    cases rest with
    | nil => exact .inr ⟨cs, by simp, by simpa using h⟩
    | cons next others =>
      rw [List.intercalate_cons_cons, List.mem_append, List.mem_append] at h
      rcases h with (hc | hmark) | hrest
      · exact .inr ⟨cs, by simp, hc⟩
      · exact .inl hmark
      · rcases ih hrest with hmark | ⟨ds, hds, hc⟩
        · exact .inl hmark
        · exact .inr ⟨ds, List.mem_cons_of_mem cs hds, hc⟩

/-- Characters of a kind end where one of another kind follows. -/
theorem takeWhile_append_and_dropWhile {belongs : Char → Bool} {cs rest : List Char}
    (hcs : ∀ c ∈ cs, belongs c = true) (hrest : ∀ c ∈ rest.head?, belongs c = false) :
    (cs ++ rest).takeWhile belongs = cs ∧ (cs ++ rest).dropWhile belongs = rest := by
  rw [List.takeWhile_append_of_pos hcs, List.dropWhile_append_of_pos hcs]
  cases rest with
  | nil => simp
  | cons c others => simp [hrest c rfl]

/-- A text has no mark, or it is what comes before the first one, the mark, and what follows it. -/
theorem upTo_mark (mark : Char) (cs : List Char) :
    (cs.dropWhile (· != mark) = [] ∧ cs.takeWhile (· != mark) = cs) ∨
      ∃ rest, cs.dropWhile (· != mark) = mark :: rest ∧
        cs.takeWhile (· != mark) ++ mark :: rest = cs := by
  have hwhole := List.takeWhile_append_dropWhile (p := (· != mark)) (l := cs)
  have hfirst := List.head?_dropWhile_not (· != mark) cs
  cases hrest : cs.dropWhile (· != mark) with
  | nil =>
    rw [hrest, List.append_nil] at hwhole
    exact .inl ⟨rfl, hwhole⟩
  | cons first rest =>
    rw [hrest] at hwhole hfirst
    obtain rfl : first = mark := by simpa using hfirst
    exact .inr ⟨rest, rfl, hwhole⟩

end Transclude.Text
