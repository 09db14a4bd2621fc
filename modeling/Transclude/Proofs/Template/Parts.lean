import Transclude.Proofs.Template.Parameter
import Transclude.Template.Scan

/-!
# The parts of a text

The parts of a text are its characters, with each template in one part. `partsFrom` reads them off
without places, and `parts_pieces` says that the pieces between which a text is cut have these
parts. `partsFrom_template` is how a template that was written is read.
-/

namespace Transclude

namespace Template

/-! ## Reading parts -/

/-- The parts of the rest of a text, of which the first `skip` characters belong to the last template
found. -/
def partsFrom : (skip : Nat) → List Char → List (Char ⊕ TemplateCall)
  | _, [] => []
  | skip + 1, _ :: rest => partsFrom skip rest
  | 0, c :: rest =>
    match atStart (c :: rest) with
    | some inner => .inr (inner.at 0).call :: partsFrom (inner.length - 1) rest
    | none => .inl c :: partsFrom 0 rest

/-- The parts of a piece. -/
def Piece.parts : Piece → List (Char ⊕ TemplateCall)
  | .literal text => text.toList.map .inl
  | .call template => [.inr template]

/-- The parts of the text between two places, the second of which is at a character. -/
theorem take_drop_succ {text rest : List Char} {c : Char} {start stop : Nat}
    (hstop : text.drop stop = c :: rest) (hstart : start ≤ stop) :
    (text.drop start).take (stop + 1 - start) = (text.drop start).take (stop - start) ++ [c] := by
  have hat : text[stop]? = some c := by
    rw [← List.head?_drop, hstop]
    rfl
  rw [Nat.sub_add_comm hstart, List.take_add_one, List.getElem?_drop, Nat.add_sub_cancel' hstart, hat]
  rfl

/-- The pieces from a place on have the parts of the text from there on. -/
theorem parts_piecesFrom (text : List Char) {cs : List Char} {pos start skip : Nat}
    (hcs : text.drop pos = cs) (hstart : start ≤ pos + skip) (hskip : skip = 0 ∨ start = pos + skip) :
    (piecesFrom text start (scanFrom pos skip cs)).flatMap Piece.parts =
      ((text.drop start).take (pos + skip - start)).map .inl ++ partsFrom skip cs := by
  -- The induction is on what is left of the text. What stands open from `start` on is no part of a
  -- template so far.
  induction cs generalizing pos start skip with
  | nil =>
    have hend : text.length ≤ pos := List.drop_eq_nil_iff.mp hcs
    have hall : (text.drop start).take (pos + skip - start) = text.drop start :=
      List.take_of_length_le (by simp; omega)
    have hscan : scanFrom pos skip [] = [] := by simp [scanFrom]
    have hparts : partsFrom skip [] = [] := by simp [partsFrom]
    rw [hscan, hparts, piecesFrom, hall, List.append_nil]
    split
    · simp [Piece.parts, slice, List.take_of_length_le]
    · next hle => simp [List.drop_eq_nil_iff.mpr (Nat.not_lt.mp hle)]
  | cons c rest ih =>
    have hrest : text.drop (pos + 1) = rest := by
      rw [← List.tail_drop, hcs]
      rfl
    cases skip with
    | succ skip =>
      have hplace : pos + 1 + skip = pos + (skip + 1) := by omega
      rw [scanFrom, partsFrom, ← hplace]
      exact ih hrest (by omega) (by omega)
    | zero =>
      rw [scanFrom, partsFrom]
      cases hinner : atStart (c :: rest) with
      | none =>
        have hlater := @ih (pos + 1) start 0 hrest (by omega) (.inl rfl)
        simp only [Nat.add_zero] at hlater hstart ⊢
        rw [hlater, take_drop_succ hcs hstart]
        simp
      | some inner =>
        -- The pieces go on after the template.
        have hlength : 1 ≤ inner.length := by
          unfold Inner.length
          split <;> omega
        have hlater := @ih (pos + 1) (pos + inner.length) (inner.length - 1) hrest (by omega)
          (by omega)
        have hnone : pos + 1 + (inner.length - 1) - (pos + inner.length) = 0 := by omega
        rw [hnone, List.take_zero, List.map_nil, List.nil_append] at hlater
        simp only [Nat.add_zero] at hstart ⊢
        rw [piecesFrom]
        change List.flatMap Piece.parts (if start < pos then
          .literal (slice text start pos) :: .call (inner.at 0).call :: piecesFrom text
            (pos + inner.length) (scanFrom (pos + 1) (inner.length - 1) rest)
          else .call (inner.at 0).call :: piecesFrom text
            (pos + inner.length) (scanFrom (pos + 1) (inner.length - 1) rest)) = _
        split
        · simp [Piece.parts, slice, hlater]
        · next hle =>
          have hsame : pos - start = 0 := by omega
          simp [Piece.parts, hlater, hsame]

/-- The pieces of a text have its parts. -/
theorem parts_pieces (text : String) :
    (pieces text (scan text)).flatMap Piece.parts = partsFrom 0 text.toList := by
  have h := @parts_piecesFrom text.toList text.toList 0 0 0 rfl (Nat.le_refl 0) (.inl rfl)
  simpa [pieces, scan] using h

/-- A text that is not empty is one piece if there are no templates. -/
theorem pieces_nil {s : String} (h : s ≠ "") : pieces s [] = [.literal s] := by
  have hlength : 0 < s.toList.length := by
    rw [List.length_pos_iff]
    simpa using h
  simp [pieces, piecesFrom, slice, hlength]

/-- Templates that are found begin in the text. -/
theorem start_lt_of_mem_scanFrom {o : Occurrence} {cs : List Char} {pos skip : Nat}
    (h : o ∈ scanFrom pos skip cs) : o.start < pos + cs.length := by
  induction cs generalizing pos skip with
  | nil => simp [scanFrom] at h
  | cons c rest ih =>
    rw [List.length_cons]
    cases skip with
    | succ skip =>
      rw [scanFrom] at h
      have hrest := ih h
      omega
    | zero =>
      rw [scanFrom] at h
      split at h
      · rcases List.mem_cons.mp h with rfl | h
        · simp [Inner.at]
        · have hrest := ih h
          omega
      · have hrest := ih h
        omega

/-- No text between templates is empty. -/
theorem ne_empty_of_literal_mem_pieces {text s : String}
    (h : .literal s ∈ pieces text (scan text)) : s ≠ "" := by
  have hslice {start stop : Nat} (hstart : start < stop) (hstop : stop ≤ text.toList.length) :
      slice text.toList start stop ≠ "" := by
    intro heq
    have hlength := congrArg (fun s => s.toList.length) heq
    simp [slice] at hlength hstop
    omega
  have hbegin : ∀ o ∈ scan text, o.start ≤ text.toList.length := by
    intro o ho
    have hlt := start_lt_of_mem_scanFrom ho
    omega
  unfold pieces at h
  generalize scan text = os at h hbegin
  generalize 0 = pos at h
  induction os generalizing pos with
  | nil =>
    rw [piecesFrom] at h
    split at h
    · next hpos =>
      simp only [List.mem_singleton, Piece.literal.injEq] at h
      exact h ▸ hslice hpos (Nat.le_refl _)
    · simp at h
  | cons o rest ih =>
    obtain ⟨ho, hrest⟩ := List.forall_mem_cons.mp hbegin
    rw [piecesFrom] at h
    split at h
    · next hpos =>
      simp only [List.mem_cons, Piece.literal.injEq, reduceCtorEq, false_or] at h
      rcases h with rfl | h
      · exact hslice hpos ho
      · exact ih hrest o.stop h
    · simp only [List.mem_cons, reduceCtorEq, false_or] at h
      exact ih hrest o.stop h

/-! ## Reading what was written -/

/-- Characters other than colons are parts of their own. -/
theorem partsFrom_of_no_colon {cs : List Char} (h : ':' ∉ cs) (rest : List Char) :
    partsFrom 0 (cs ++ rest) = cs.map .inl ++ partsFrom 0 rest := by
  induction cs with
  | nil => rfl
  | cons c cs ih =>
    rw [List.mem_cons, not_or] at h
    have hnone : atStart (c :: (cs ++ rest)) = none := by
      unfold atStart
      split
      · next heq => exact absurd (List.cons_eq_cons.mp heq).1.symm h.1
      · rfl
    rw [List.cons_append, partsFrom, hnone, List.map_cons, List.cons_append, ← ih h.2]

/-- The characters of a template are skipped. -/
theorem partsFrom_skip (cs rest : List Char) :
    partsFrom cs.length (cs ++ rest) = partsFrom 0 rest := by
  induction cs with
  | nil => rfl
  | cons c cs ih => rw [List.cons_append, List.length_cons, partsFrom, ih]

/-- Metadata without colons and line breaks end at the next pair of colons. -/
theorem untilColons_append {cs : List Char} (h : ∀ c ∈ cs, c ≠ ':' ∧ c ≠ '\n') (rest : List Char) :
    untilColons (cs ++ ':' :: ':' :: rest) = some cs := by
  induction cs with
  | nil => rw [List.nil_append, untilColons]
  | cons c cs ih =>
    obtain ⟨hcolon, hline⟩ := h c (by simp)
    rw [List.cons_append, untilColons, if_neg hline, ih fun d hd => h d (by simp [hd])]
    · rfl
    · intro tail heq
      exact absurd heq hcolon

/-- How a template is written between its pairs of colons. -/
def Inner.chars (inner : Inner) : List Char :=
  inner.name ++ match inner.metadata with
    | none => []
    | some metadata => '|' :: metadata

/-- Whether a template can be read as it is written: it has a name, its metadata are not empty, and
neither holds what would end it. -/
structure Inner.Legible (inner : Inner) : Prop where
  /-- It has a name. -/
  ne_nil : inner.name ≠ []
  /-- Nothing in the name ends it. -/
  name : ∀ c ∈ inner.name, c ≠ ':' ∧ c ≠ '|' ∧ c ≠ '\n'
  /-- The metadata are not empty. -/
  metadata_ne_nil : inner.metadata ≠ some []
  /-- Nothing in the metadata ends them. -/
  metadata : ∀ metadata ∈ inner.metadata, ∀ c ∈ metadata, c ≠ ':' ∧ c ≠ '\n'

/-- What was written is read after the name. -/
theorem afterName_append {metadata : Option (List Char)} (hne : metadata ≠ some [])
    (h : ∀ m ∈ metadata, ∀ c ∈ m, c ≠ ':' ∧ c ≠ '\n') {name : List Char}
    (hname : ∀ c ∈ name, c ≠ ':' ∧ c ≠ '|' ∧ c ≠ '\n') (rest : List Char) :
    afterName ((Inner.chars ⟨name, metadata⟩) ++ ':' :: ':' :: rest) = some ⟨name, metadata⟩ := by
  induction name with
  | nil =>
    cases metadata with
    | none => simp [Inner.chars, afterName]
    | some m =>
      cases m with
      | nil => exact absurd rfl hne
      | cons c cs =>
        have hm := h (c :: cs) rfl
        have hcs : ∀ d ∈ cs, d ≠ ':' ∧ d ≠ '\n' := fun d hd => hm d (by simp [hd])
        have huntil := untilColons_append hcs rest
        simp [Inner.chars, afterName, (hm c (by simp)).2, huntil]
  | cons c cs ih =>
    obtain ⟨hcolon, hbar, hline⟩ := hname c (by simp)
    have hrest := ih fun d hd => hname d (by simp [hd])
    change afterName (c :: (Inner.chars ⟨cs, metadata⟩ ++ ':' :: ':' :: rest)) = _
    rw [afterName, if_neg hline, hrest]
    · rfl
    · intro tail heq
      exact absurd heq hcolon
    · intro heq
      exact absurd heq hbar
    · intro d tail heq
      exact absurd heq hbar

/-- A template that was written is one part, and what follows is read after it. -/
theorem partsFrom_template {inner : Inner} (h : inner.Legible) (rest : List Char) :
    partsFrom 0 (':' :: ':' :: inner.chars ++ ':' :: ':' :: rest) =
      .inr (inner.at 0).call :: partsFrom 0 rest := by
  obtain ⟨name, metadata⟩ := inner
  obtain ⟨c, cs, rfl⟩ := List.exists_cons_of_ne_nil h.ne_nil
  obtain ⟨-, hbar, hline⟩ := h.name c List.mem_cons_self
  have hafter := afterName_append h.metadata_ne_nil h.metadata
    (fun d hd => h.name d (List.mem_cons_of_mem c hd)) rest
  have hstart : atStart (':' :: ':' :: Inner.chars ⟨c :: cs, metadata⟩ ++ ':' :: ':' :: rest) =
      some ⟨c :: cs, metadata⟩ := by
    change atStart (':' :: ':' :: c :: (Inner.chars ⟨cs, metadata⟩ ++ ':' :: ':' :: rest)) = _
    rw [atStart, if_neg (by simp [hbar, hline]), hafter]
    rfl
  -- All characters of the template after the first are skipped.
  have hlength : Inner.length ⟨c :: cs, metadata⟩ - 1 =
      (':' :: Inner.chars ⟨c :: cs, metadata⟩ ++ [':', ':']).length := by
    unfold Inner.length Inner.chars
    cases metadata with
    | none => simp
    | some m => simp; omega
  have hskip := partsFrom_skip (':' :: Inner.chars ⟨c :: cs, metadata⟩ ++ [':', ':']) rest
  rw [← hlength] at hskip
  rw [List.cons_append, List.cons_append, partsFrom]
  rw [List.cons_append, List.cons_append] at hstart
  rw [hstart]
  dsimp only
  rw [← hskip]
  simp

end Template

end Transclude
