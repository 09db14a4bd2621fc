import Transclude.Proofs.Text.Mark
import Transclude.Template.Scan

/-!
# The leftmost shortest templates

Where a text has a template is said by `TemplateAt` in terms of the text between two places, without
reference to how a scan proceeds. `Leftmost` lists templates of which each is the first that starts
after the one before, and the shortest that starts there. `leftmost_iff_eq_scan` says that the scan
finds these, and that no other list is like this.
-/

namespace Transclude.Template

/-! ## Templates at places -/

/-- Whether some characters can stand between the colons of a template: they are on one line, and
are a name without bars, or such a name, a bar, and metadata. Neither part is empty. -/
def IsInner (cs : List Char) : Prop :=
  '\n' ∉ cs ∧ ∃ name, name ≠ [] ∧ '|' ∉ name ∧
    (cs = name ∨ ∃ metadata, metadata ≠ [] ∧ cs = name ++ '|' :: metadata)

/-- Whether a text has a template from the place `start` to the place `stop`. -/
def TemplateAt (text : List Char) (start stop : Nat) : Prop :=
  start + 2 < stop - 2 ∧ text.extract start (start + 2) = [':', ':'] ∧
    text.extract (stop - 2) stop = [':', ':'] ∧ IsInner (text.extract (start + 2) (stop - 2))

/-- The parts of what stands between the colons: the name is what comes before the first bar, and
the metadata what comes after it. -/
def Inner.ofChars (cs : List Char) : Inner where
  name := cs.takeWhile (· != '|')
  metadata := (cs.dropWhile (· != '|')).tail?

/-- The template that a text has from the place `start` to the place `stop`. -/
def Occurrence.between (text : List Char) (start stop : Nat) : Occurrence where
  start := start
  stop := stop
  name := String.ofList (Inner.ofChars (text.extract (start + 2) (stop - 2))).name
  metadata := (Inner.ofChars (text.extract (start + 2) (stop - 2))).metadata.map String.ofList

/-- The templates of a text from a place on, each the first that starts after the one before it, and
the shortest that starts there. There is no template after the last. -/
inductive Leftmost (text : List Char) : Nat → List Occurrence → Prop
  /-- No template starts any more. -/
  | done {place : Nat} : (∀ start stop, place ≤ start → ¬ TemplateAt text start stop) →
      Leftmost text place []
  /-- The next template starts as early as one can, and is as short as it can be. -/
  | next {place start stop : Nat} {os : List Occurrence} : place ≤ start →
      TemplateAt text start stop →
      (∀ start' stop', place ≤ start' → TemplateAt text start' stop' → start ≤ start') →
      (∀ stop', TemplateAt text start stop' → stop ≤ stop') → Leftmost text stop os →
      Leftmost text place (Occurrence.between text start stop :: os)

/-! ## The parts of a template -/

namespace Inner

/-- Nothing has no parts. -/
theorem ofChars_nil : ofChars [] = ⟨[], none⟩ := rfl

/-- The name ends at the first bar. -/
theorem ofChars_bar (cs : List Char) : ofChars ('|' :: cs) = ⟨[], some cs⟩ := rfl

/-- Every other character belongs to the name. -/
theorem ofChars_cons {c : Char} (h : c ≠ '|') (cs : List Char) :
    ofChars (c :: cs) = { ofChars cs with name := c :: (ofChars cs).name } := by
  simp [ofChars, h]

/-- A template has four colons besides its parts and the bar between them. -/
theorem length_ofChars (cs : List Char) : (ofChars cs).length = cs.length + 4 := by
  induction cs with
  | nil => rfl
  | cons c rest ih =>
    by_cases hc : c = '|'
    · subst hc
      simp [ofChars_bar, length, Nat.add_comm]
    · rw [ofChars_cons hc, List.length_cons]
      unfold length at ih ⊢
      cases hm : (ofChars rest).metadata with
      | none =>
        simp only [hm, List.length_cons] at ih ⊢
        omega
      | some metadata =>
        simp only [hm, List.length_cons] at ih ⊢
        omega

end Inner

/-- What can stand between the colons of a template is on one line, and neither of its parts is
empty. -/
theorem isInner_iff {cs : List Char} : IsInner cs ↔
    '\n' ∉ cs ∧ (Inner.ofChars cs).name ≠ [] ∧ (Inner.ofChars cs).metadata ≠ some [] := by
  have hname {name : List Char} (h : '|' ∉ name) : ∀ c ∈ name, (c != '|') = true := by
    intro c hc
    rw [bne_iff_ne]
    exact fun heq => h (heq ▸ hc)
  unfold IsInner
  rw [and_congr_right_iff]
  intro _
  constructor
  · rintro ⟨name, hne, hbar, rfl | ⟨metadata, hmetadata, rfl⟩⟩
    · have htake := List.takeWhile_eq_self_iff.mpr (hname hbar)
      have hdrop := List.dropWhile_eq_nil_iff.mpr (hname hbar)
      simp [Inner.ofChars, htake, hdrop, hne]
    · simp [Inner.ofChars, List.takeWhile_append_of_pos (hname hbar),
        List.dropWhile_append_of_pos (hname hbar), hne, hmetadata]
  · rintro ⟨hne, hmetadata⟩
    refine ⟨(Inner.ofChars cs).name, hne, fun hmem => ?_, ?_⟩
    · simpa using List.mem_takeWhile_imp hmem
    · rcases Text.upTo_mark '|' cs with ⟨-, hwhole⟩ | ⟨metadata, hdrop, hwhole⟩
      · exact .inl hwhole.symm
      · refine .inr ⟨metadata, fun hnil => hmetadata ?_, hwhole.symm⟩
        simp [Inner.ofChars, hdrop, hnil]

/-- What can stand between the colons of a template is not empty. -/
theorem IsInner.ne_nil {cs : List Char} (h : IsInner cs) : cs ≠ [] := by
  rintro rfl
  exact (isInner_iff.mp h).2.1 rfl

/-! ## The shortest template at a place -/

/-- Some characters are on one line, and stand at the beginning of a text with two colons after
them. -/
def Closes (cs w : List Char) : Prop := '\n' ∉ w ∧ ∃ rest, cs = w ++ ':' :: ':' :: rest

/-- Some characters have a property, and no shorter ones do. -/
def IsShortest (P : List Char → Prop) (w : List Char) : Prop := P w ∧ ∀ v, P v → w.length ≤ v.length

section Shortest

variable {P Q : List Char → Prop} {c : Char} {w cs : List Char}

/-- Nothing is as short as can be. -/
theorem isShortest_nil (h : P []) : IsShortest P [] := ⟨h, by simp⟩

/-- If all that has a property begins with a character, the shortest is found after it. -/
theorem IsShortest.cons (h : IsShortest P w) (hiff : ∀ v, Q v ↔ ∃ u, v = c :: u ∧ P u) :
    IsShortest Q (c :: w) := by
  refine ⟨(hiff _).mpr ⟨w, rfl, h.1⟩, fun v hv => ?_⟩
  obtain ⟨u, rfl, hu⟩ := (hiff v).mp hv
  simpa using h.2 u hu

/-- Two colons close nothing. -/
theorem closes_nil_of_colons (rest : List Char) : Closes (':' :: ':' :: rest) [] :=
  ⟨by simp, rest, rfl⟩

/-- What is closed and begins with a character is closed after it. -/
theorem closes_cons_cons {d : Char} :
    Closes (c :: cs) (d :: w) ↔ c = d ∧ c ≠ '\n' ∧ Closes cs w := by
  unfold Closes
  constructor
  · rintro ⟨hline, rest, hrest⟩
    obtain ⟨rfl, rfl⟩ : c = d ∧ cs = w ++ ':' :: ':' :: rest := by simpa using hrest
    rw [List.mem_cons, not_or] at hline
    exact ⟨rfl, Ne.symm hline.1, hline.2, rest, rfl⟩
  · rintro ⟨rfl, hc, hline, rest, rfl⟩
    exact ⟨by simp [hline, Ne.symm hc], rest, rfl⟩

/-- Where two colons do not stand at the beginning, what they close begins as the text does. -/
theorem closes_cons_iff (h : ∀ rest, c :: cs ≠ ':' :: ':' :: rest) :
    Closes (c :: cs) w ↔ ∃ v, w = c :: v ∧ c ≠ '\n' ∧ Closes cs v := by
  cases w with
  | nil =>
    refine iff_of_false (fun hclosed => ?_) (by simp)
    obtain ⟨-, rest, hrest⟩ := hclosed
    exact h rest hrest
  | cons d v =>
    rw [closes_cons_cons]
    constructor
    · rintro ⟨rfl, hrest⟩
      exact ⟨v, rfl, hrest⟩
    · rintro ⟨u, hu, hrest⟩
      rw [List.cons.injEq] at hu
      exact ⟨hu.1.symm, hu.2 ▸ hrest⟩

/-- Nothing is closed on a line that has ended. -/
theorem not_closes_of_line_break : ¬ Closes ('\n' :: cs) w := by
  rw [closes_cons_iff (by simp)]
  simp

end Shortest

/-- The metadata that are found are the shortest that two colons close. -/
theorem untilColons_spec (cs : List Char) :
    match untilColons cs with
    | some w => IsShortest (Closes cs) w
    | none => ∀ w, ¬ Closes cs w := by
  induction cs using untilColons.induct with
  | case1 => simp [untilColons, Closes]
  | case2 rest => exact isShortest_nil (closes_nil_of_colons rest)
  | case3 rest h =>
    rw [untilColons]
    · exact fun w => not_closes_of_line_break
    · exact h
  | case4 c rest h hc ih =>
    have hiff (w : List Char) : Closes (c :: rest) w ↔ ∃ v, w = c :: v ∧ Closes rest v := by
      rw [closes_cons_iff fun r heq => ?_]
      · simp [hc]
      · rw [List.cons.injEq] at heq
        exact h r heq.1 heq.2
    rw [untilColons, if_neg hc]
    · cases huntil : untilColons rest with
      | none =>
        rw [huntil] at ih
        rintro w hw
        obtain ⟨v, -, hv⟩ := (hiff w).mp hw
        exact ih v hv
      | some w =>
        rw [huntil] at ih
        exact ih.cons hiff
    · exact h

/-- What is found after the first character of a name is the shortest that two colons close and in
which no bar is the last character. -/
theorem afterName_spec (cs : List Char) :
    match afterName cs with
    | some inner => ∃ w, inner = Inner.ofChars w ∧
        IsShortest (fun w => Closes cs w ∧ (Inner.ofChars w).metadata ≠ some []) w
    | none => ∀ w, Closes cs w → (Inner.ofChars w).metadata = some [] := by
  induction cs using afterName.induct with
  | case1 => simp [afterName, Closes]
  | case2 rest =>
    exact ⟨[], rfl, isShortest_nil ⟨closes_nil_of_colons rest, by simp [Inner.ofChars_nil]⟩⟩
  | case3 =>
    intro w hw
    obtain ⟨v, -, -, -, rest, hrest⟩ := (closes_cons_iff (by simp)).mp hw
    simp at hrest
  | case4 rest =>
    intro w hw
    obtain ⟨v, -, -, hv⟩ := (closes_cons_iff (by simp)).mp hw
    exact absurd hv not_closes_of_line_break
  | case5 c rest hc =>
    -- The metadata have the first character after the bar, whatever it is.
    have hafter (v : List Char) :
        (Closes (c :: rest) v ∧ v ≠ []) ↔ ∃ u, v = c :: u ∧ Closes rest u := by
      cases v with
      | nil => simp
      | cons d u =>
        rw [closes_cons_cons]
        constructor
        · rintro ⟨⟨rfl, -, hu⟩, -⟩
          exact ⟨u, rfl, hu⟩
        · rintro ⟨u', heq, hu⟩
          rw [List.cons.injEq] at heq
          exact ⟨⟨heq.1.symm, hc, heq.2 ▸ hu⟩, by simp⟩
    have hiff (w : List Char) :
        (Closes ('|' :: c :: rest) w ∧ (Inner.ofChars w).metadata ≠ some []) ↔
          ∃ v, w = '|' :: v ∧ Closes (c :: rest) v ∧ v ≠ [] := by
      rw [closes_cons_iff (by simp)]
      constructor
      · rintro ⟨⟨v, rfl, -, hv⟩, hmetadata⟩
        exact ⟨v, rfl, hv, by simpa [Inner.ofChars_bar] using hmetadata⟩
      · rintro ⟨v, rfl, hv, hne⟩
        exact ⟨⟨v, rfl, by simp, hv⟩, by simpa [Inner.ofChars_bar] using hne⟩
    have hspec := untilColons_spec rest
    rw [afterName, if_neg hc]
    cases huntil : untilColons rest with
    | none =>
      rw [huntil] at hspec
      intro w hw
      by_contra hmetadata
      obtain ⟨v, -, hv⟩ := (hiff w).mp ⟨hw, hmetadata⟩
      obtain ⟨u, -, hu⟩ := (hafter v).mp hv
      exact hspec u hu
    | some w =>
      rw [huntil] at hspec
      exact ⟨'|' :: c :: w, rfl, (hspec.cons hafter).cons hiff⟩
  | case6 rest h h' h'' =>
    rw [afterName, if_pos rfl]
    · exact fun w hw => absurd hw not_closes_of_line_break
    · exact h
    · exact h'
    · exact h''
  | case7 c rest hcolons hlast hbar hc ih =>
    have hne : c ≠ '|' := by
      intro heq
      cases rest with
      | nil => exact hlast heq rfl
      | cons d others => exact hbar d others heq rfl
    have hiff (w : List Char) :
        (Closes (c :: rest) w ∧ (Inner.ofChars w).metadata ≠ some []) ↔
          ∃ v, w = c :: v ∧ Closes rest v ∧ (Inner.ofChars v).metadata ≠ some [] := by
      rw [closes_cons_iff fun r heq => ?_]
      · constructor
        · rintro ⟨⟨v, rfl, -, hv⟩, hmetadata⟩
          exact ⟨v, rfl, hv, by simpa [Inner.ofChars_cons hne] using hmetadata⟩
        · rintro ⟨v, rfl, hv, hmetadata⟩
          exact ⟨⟨v, rfl, hc, hv⟩, by simpa [Inner.ofChars_cons hne] using hmetadata⟩
      · rw [List.cons.injEq] at heq
        exact hcolons r heq.1 heq.2
    rw [afterName, if_neg hc]
    · cases hrest : afterName rest with
      | none =>
        rw [hrest] at ih
        intro w hw
        by_contra hmetadata
        obtain ⟨v, -, hv, hmetadata⟩ := (hiff w).mp ⟨hw, hmetadata⟩
        exact hmetadata (ih v hv)
      | some inner =>
        rw [hrest] at ih
        obtain ⟨w, rfl, hw⟩ := ih
        exact ⟨c :: w, (Inner.ofChars_cons hne w).symm, hw.cons hiff⟩
    · exact hcolons
    · exact hlast
    · exact hbar

/-- What two colons close and can stand between the colons of a template begins with a character of
the name. -/
theorem closes_isInner_iff {c : Char} {rest w : List Char} (hbar : c ≠ '|') (hline : c ≠ '\n') :
    (Closes (c :: rest) w ∧ IsInner w) ↔
      ∃ v, w = c :: v ∧ Closes rest v ∧ (Inner.ofChars v).metadata ≠ some [] := by
  constructor
  · rintro ⟨hclosed, hinner⟩
    obtain ⟨d, v, rfl⟩ := List.exists_cons_of_ne_nil hinner.ne_nil
    obtain ⟨rfl, -, hv⟩ := closes_cons_cons.mp hclosed
    obtain ⟨-, -, hmetadata⟩ := isInner_iff.mp hinner
    exact ⟨v, rfl, hv, by simpa [Inner.ofChars_cons hbar] using hmetadata⟩
  · rintro ⟨v, rfl, hv, hmetadata⟩
    have hclosed := closes_cons_cons.mpr ⟨rfl, hline, hv⟩
    refine ⟨hclosed, isInner_iff.mpr ⟨hclosed.1, ?_, ?_⟩⟩
    · simp [Inner.ofChars_cons hbar]
    · simpa [Inner.ofChars_cons hbar] using hmetadata

/-- The template that is found at the beginning of a text is the shortest that begins there. -/
theorem atStart_spec (cs : List Char) :
    match atStart cs with
    | some inner => ∃ w rest, cs = ':' :: ':' :: rest ∧ inner = Inner.ofChars w ∧
        IsShortest (fun w => Closes rest w ∧ IsInner w) w
    | none => ∀ w rest, cs = ':' :: ':' :: rest → Closes rest w → ¬ IsInner w := by
  by_cases hcolons : ∃ c rest, cs = ':' :: ':' :: c :: rest
  · obtain ⟨c, rest, rfl⟩ := hcolons
    by_cases hc : c = '|' ∨ c = '\n'
    · rw [atStart, if_pos hc]
      rintro w rest' heq hclosed hinner
      obtain rfl : c :: rest = rest' := by simpa using heq
      -- The name would begin with a bar or a line break.
      obtain ⟨d, v, rfl⟩ := List.exists_cons_of_ne_nil hinner.ne_nil
      obtain ⟨rfl, hline, -⟩ := closes_cons_cons.mp hclosed
      obtain rfl := hc.resolve_right hline
      exact (isInner_iff.mp hinner).2.1 (by simp [Inner.ofChars_bar])
    · rw [atStart, if_neg hc]
      rw [not_or] at hc
      have hspec := afterName_spec rest
      cases hafter : afterName rest with
      | none =>
        rw [hafter] at hspec
        rintro w rest' heq hclosed hinner
        obtain rfl : c :: rest = rest' := by simpa using heq
        obtain ⟨v, -, hv, hmetadata⟩ := (closes_isInner_iff hc.1 hc.2).mp ⟨hclosed, hinner⟩
        exact hmetadata (hspec v hv)
      | some inner =>
        rw [hafter] at hspec
        obtain ⟨w, rfl, hw⟩ := hspec
        exact ⟨c :: w, c :: rest, rfl, (Inner.ofChars_cons hc.1 w).symm,
          hw.cons fun w => closes_isInner_iff hc.1 hc.2⟩
  · have hnone : atStart cs = none := by
      unfold atStart
      split
      · exact absurd ⟨_, _, rfl⟩ hcolons
      · rfl
    rw [hnone]
    rintro w rest rfl ⟨-, after, rfl⟩ hinner
    obtain ⟨c, v, rfl⟩ := List.exists_cons_of_ne_nil hinner.ne_nil
    exact hcolons ⟨c, _, rfl⟩

/-! ## Places of templates -/

section Places

variable {text w rest : List Char} {start stop : Nat}

/-- A part of a text has given characters if they stand where it begins. -/
theorem extract_eq_iff (hstop : stop = start + w.length) :
    text.extract start stop = w ↔ ∃ rest, text.drop start = w ++ rest := by
  subst hstop
  rw [List.extract_eq_take_drop, Nat.add_sub_cancel_left]
  constructor
  · intro h
    have hsplit := List.take_append_drop w.length (text.drop start)
    rw [h] at hsplit
    exact ⟨_, hsplit.symm⟩
  · rintro ⟨rest, h⟩
    rw [h, List.take_left]

/-- What comes after a place is the part up to a later place and what comes after that one. -/
theorem extract_append_drop (h : start ≤ stop) :
    text.extract start stop ++ text.drop stop = text.drop start := by
  have hdrop : text.drop stop = (text.drop start).drop (stop - start) := by
    rw [List.drop_drop, Nat.add_sub_cancel' h]
  rw [List.extract_eq_take_drop, hdrop, List.take_append_drop]

/-- What comes after some characters comes after the place behind them. -/
theorem drop_add_of_append (h : text.drop start = w ++ rest) :
    text.drop (start + w.length) = rest := by
  rw [← List.drop_drop, h, List.drop_left]

/-- A text has a template at a place if it reads as one from there on. -/
theorem templateAt_iff :
    TemplateAt text start stop ↔ ∃ w rest, text.drop start = ':' :: ':' :: rest ∧ Closes rest w ∧
      IsInner w ∧ stop = start + (w.length + 4) := by
  unfold TemplateAt
  constructor
  · rintro ⟨hlt, hopened, hclosed, hinner⟩
    obtain ⟨rest, hrest⟩ := (extract_eq_iff (w := [':', ':']) rfl).mp hopened
    obtain ⟨after, hafter⟩ := (extract_eq_iff (w := [':', ':']) (by simp; omega)).mp hclosed
    have hsplit : text.extract (start + 2) (stop - 2) ++ text.drop (stop - 2) =
        text.drop (start + 2) := extract_append_drop hlt.le
    have hdrop : text.drop (start + 2) = rest := drop_add_of_append hrest
    rw [hafter, hdrop] at hsplit
    refine ⟨text.extract (start + 2) (stop - 2), rest, hrest, ⟨hinner.1, after, hsplit.symm⟩,
      hinner, ?_⟩
    -- The text goes on after the second place, so the part between the two is as long as it seems.
    have hlength := congrArg List.length hafter
    simp only [List.length_drop, List.length_append, List.length_cons] at hlength
    rw [List.extract_eq_take_drop, List.length_take, List.length_drop]
    omega
  · rintro ⟨w, rest, hopened, ⟨hline, after, rfl⟩, hinner, rfl⟩
    have hafter : text.drop (start + 2) = w ++ ':' :: ':' :: after :=
      drop_add_of_append (w := [':', ':']) hopened
    have hclosed := drop_add_of_append hafter
    have hlength := List.length_pos_iff.mpr hinner.ne_nil
    have hw : text.extract (start + 2) (start + (w.length + 4) - 2) = w :=
      (extract_eq_iff (by omega)).mpr ⟨_, hafter⟩
    refine ⟨by omega, (extract_eq_iff (w := [':', ':']) rfl).mpr ⟨_, hopened⟩, ?_,
      hw.symm ▸ hinner⟩
    refine (extract_eq_iff (w := [':', ':']) (by simp; omega)).mpr ⟨after, ?_⟩
    rw [show start + (w.length + 4) - 2 = start + 2 + w.length by omega]
    exact hclosed

/-- What a template has between its colons is what is closed there. -/
theorem between_of_closes (hopened : text.drop start = ':' :: ':' :: rest) (hclosed : Closes rest w)
    (hstop : stop = start + (w.length + 4)) :
    Occurrence.between text start stop = (Inner.ofChars w).at start := by
  obtain ⟨-, after, rfl⟩ := hclosed
  have hafter : text.drop (start + 2) = w ++ ':' :: ':' :: after :=
    drop_add_of_append (w := [':', ':']) hopened
  have hw : text.extract (start + 2) (stop - 2) = w := (extract_eq_iff (by omega)).mpr ⟨_, hafter⟩
  rw [Occurrence.between, hw, Inner.at, Inner.length_ofChars, hstop]

end Places

/-! ## The scan -/

namespace Leftmost

variable {text : List Char} {place : Nat} {os : List Occurrence}

/-- Where no template starts at a place, the templates from there on are those after it. -/
theorem of_succ (h : Leftmost text (place + 1) os) (hnone : ∀ stop, ¬ TemplateAt text place stop) :
    Leftmost text place os := by
  -- A template that starts from the place on starts after it.
  have hlater {start stop : Nat} (hstart : place ≤ start) (hat : TemplateAt text start stop) :
      place + 1 ≤ start := by
    rcases Nat.eq_or_lt_of_le hstart with rfl | hlt
    · exact absurd hat (hnone stop)
    · exact hlt
  cases h with
  | done hdone => exact .done fun start stop hstart hat => hdone start stop (hlater hstart hat) hat
  | next hle hat hfirst hshortest hrest =>
    exact .next (by omega) hat
      (fun start' stop' hstart hat' => hfirst start' stop' (hlater hstart hat') hat')
      hshortest hrest

/-- There is only one list of leftmost shortest templates. -/
theorem unique {os' : List Occurrence} (h : Leftmost text place os)
    (h' : Leftmost text place os') : os = os' := by
  induction h generalizing os' with
  | done hdone =>
    cases h' with
    | done => rfl
    | next hle hat => exact absurd hat (hdone _ _ hle)
  | next hle hat hfirst hshortest _ ih =>
    cases h' with
    | done hdone => exact absurd hat (hdone _ _ hle)
    | next hle' hat' hfirst' hshortest' hrest' =>
      obtain rfl := le_antisymm (hfirst _ _ hle' hat') (hfirst' _ _ hle hat)
      obtain rfl := le_antisymm (hshortest _ hat') (hshortest' _ hat)
      rw [ih hrest']

end Leftmost

/-- The scan of the rest of a text finds the leftmost shortest templates after the last one. -/
theorem leftmost_scanFrom {text : List Char} (cs : List Char) (pos skip : Nat)
    (h : text.drop pos = cs) : Leftmost text (pos + skip) (scanFrom pos skip cs) := by
  induction cs generalizing pos skip with
  | nil =>
    rw [scanFrom]
    refine .done fun start stop hstart hat => ?_
    obtain ⟨w, rest, hrest, -⟩ := templateAt_iff.mp hat
    -- No text is left at any later place.
    have hlength := congrArg List.length h
    have hlength' := congrArg List.length hrest
    simp only [List.length_drop, List.length_nil, List.length_cons] at hlength hlength'
    omega
  | cons c rest ih =>
    have hrest : text.drop (pos + 1) = rest := drop_add_of_append (w := [c]) h
    cases skip with
    | succ skip =>
      rw [scanFrom, ← Nat.add_assoc, Nat.add_right_comm]
      exact ih (pos + 1) skip hrest
    | zero =>
      have hspec := atStart_spec (c :: rest)
      rw [scanFrom, Nat.add_zero]
      cases hat : atStart (c :: rest) with
      | none =>
        rw [hat] at hspec
        refine (ih (pos + 1) 0 hrest).of_succ fun stop hstop => ?_
        obtain ⟨w, after, hafter, hclosed, hinner, -⟩ := templateAt_iff.mp hstop
        exact hspec w after (h ▸ hafter) hclosed hinner
      | some inner =>
        rw [hat] at hspec
        obtain ⟨w, after, hafter, rfl, ⟨hclosed, hinner⟩, hshortest⟩ := hspec
        rw [← h] at hafter
        have hfound := templateAt_iff.mpr ⟨w, after, hafter, hclosed, hinner, rfl⟩
        have hlater := ih (pos + 1) ((Inner.ofChars w).length - 1) hrest
        dsimp only
        rw [Inner.length_ofChars] at hlater ⊢
        rw [← between_of_closes hafter hclosed rfl]
        refine .next le_rfl hfound (fun _ _ hle _ => hle) (fun stop hstop => ?_) ?_
        · obtain ⟨v, after', hafter', hclosed', hinner', rfl⟩ := templateAt_iff.mp hstop
          obtain rfl : after = after' := by simpa using hafter.symm.trans hafter'
          have := hshortest v ⟨hclosed', hinner'⟩
          omega
        · rw [show pos + (w.length + 4) = pos + 1 + (w.length + 4 - 1) by omega]
          exact hlater

/-- The scan of a text finds the leftmost shortest templates of the text. -/
theorem leftmost_scan (text : String) : Leftmost text.toList 0 (scan text) :=
  leftmost_scanFrom text.toList 0 0 rfl

/-- The scan of a text finds the leftmost shortest templates, and there is no other list of these:
each template is the first that starts at or after the end of the one before it, and the shortest
that starts there; after the last one there is none. -/
theorem leftmost_iff_eq_scan (text : String) (os : List Occurrence) :
    Leftmost text.toList 0 os ↔ os = scan text := by
  have hscan : Leftmost text.toList 0 (scan text) := leftmost_scanFrom text.toList 0 0 rfl
  exact ⟨fun h => h.unique hscan, fun h => h ▸ hscan⟩

example : scan "::a|:::: ::\n::b::" =
    [⟨0, 7, "a", some ":"⟩, ⟨12, 17, "b", none⟩] := by decide

/-- A text has no templates if it has none at any place. -/
theorem scan_eq_nil_iff {text : String} :
    scan text = [] ↔ ∀ start stop, ¬ TemplateAt text.toList start stop := by
  have hscan := leftmost_scan text
  constructor
  · intro hnil
    rw [hnil] at hscan
    cases hscan with
    | done hnone => exact fun start stop => hnone start stop (Nat.zero_le start)
  · intro hnone
    cases hos : scan text with
    | nil => rfl
    | cons o os =>
      rw [hos] at hscan
      cases hscan with
      | next _ hat => exact absurd hat (hnone _ _)

end Transclude.Template
