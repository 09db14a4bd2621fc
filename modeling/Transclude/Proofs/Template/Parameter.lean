import Mathlib.Data.Set.Function
import Transclude.Proofs.Text.Mark
import Transclude.Template.Parameter

/-!
# Parameters as they are written

Parameters are written with bars between them, and a key with an equals sign before its value. What
was read is written as it was (`spelling_parse`). Parameters are read as they were written if each is
`Legible` and they are not a single empty one: `LegibleList` says of a list that it is the reading of
some metadata, without speaking of reading. So metadata that are not empty and these lists stand for
each other one to one (`bijOn_parse`).
-/

namespace Transclude

namespace Parameter

/-! ## Writing parameters -/

/-- How a parameter is written. -/
def chars : Parameter → List Char
  | .bare text => text.toList
  | .keyed key value => key.toList ++ '=' :: value.toList

/-- How parameters are written, with bars between them. -/
def spelling (parameters : List Parameter) : List Char := ['|'].intercalate (parameters.map chars)

/-- Only an empty parameter without a key is written with nothing. -/
theorem chars_eq_nil_iff {p : Parameter} : p.chars = [] ↔ p = .bare "" := by
  cases p <;> simp [chars]

/-- What parameters are written with is in one of them, or a bar. -/
theorem mem_spelling {c : Char} {parameters : List Parameter} (h : c ∈ spelling parameters) :
    c = '|' ∨ ∃ p ∈ parameters, c ∈ p.chars := by
  rcases Text.mem_intercalate h with hbar | ⟨cs, hcs, hc⟩
  · exact .inl (List.mem_singleton.mp hbar)
  · obtain ⟨p, hp, rfl⟩ := List.mem_map.mp hcs
    exact .inr ⟨p, hp, hc⟩

/-- Only no parameters and a single empty one are written with nothing. -/
theorem spelling_eq_nil_iff {parameters : List Parameter} :
    spelling parameters = [] ↔ parameters = [] ∨ parameters = [.bare ""] := by
  cases parameters with
  | nil => simp [spelling]
  | cons p rest =>
    cases rest with
    | nil => simp [spelling, chars_eq_nil_iff]
    | cons q others => simp [spelling, List.intercalate_cons_cons]

/-! ## Cutting at bars -/

/-- The parts of a text are what stands between its bars. -/
theorem splitBars_eq_splitOn (cs : List Char) : splitBars cs = cs.splitOn '|' := by
  induction cs with
  | nil => simp [splitBars]
  | cons c rest ih =>
    obtain ⟨part, parts, hparts⟩ := List.exists_cons_of_ne_nil (List.splitOn_ne_nil '|' rest)
    rw [splitBars, ih, List.splitOn_cons_eq_if_modifyHead, hparts]
    simp

/-- A text has at least one part. -/
theorem splitBars_ne_nil (cs : List Char) : splitBars cs ≠ [] := by
  rw [splitBars_eq_splitOn]
  exact List.splitOn_ne_nil '|' cs

/-- The parts of a text are the text, with bars between them. -/
theorem intercalate_splitBars (cs : List Char) : ['|'].intercalate (splitBars cs) = cs := by
  rw [splitBars_eq_splitOn, List.intercalate_splitOn]

/-- No part of a text has a bar. -/
theorem not_mem_of_mem_splitBars {cs part : List Char} (h : part ∈ splitBars cs) :
    '|' ∉ part := by
  induction cs generalizing part with
  | nil => simp_all [splitBars]
  | cons c rest ih =>
    obtain ⟨first, others, hparts⟩ := List.exists_cons_of_ne_nil (splitBars_ne_nil rest)
    rw [splitBars, hparts] at h
    rw [hparts] at ih
    -- A bar begins a new part, and any other character joins the first part of the rest.
    split at h
    · rcases List.mem_cons.mp h with rfl | h
      · simp
      · exact ih h
    · next hbar =>
      rcases List.mem_cons.mp h with rfl | h
      · simp [ih List.mem_cons_self, Ne.symm hbar]
      · exact ih (List.mem_cons_of_mem first h)

/-- Parameters without bars are the parts of what is written. -/
theorem splitBars_spelling {parameters : List Parameter} (hne : parameters ≠ [])
    (h : ∀ p ∈ parameters, '|' ∉ p.chars) :
    splitBars (spelling parameters) = parameters.map chars := by
  rw [splitBars_eq_splitOn, spelling]
  exact List.splitOn_intercalate '|' (by simpa using h) (by simpa using hne)

/-! ## Reading a part -/

/-- Whether a part has no key: it has no equals sign, or begins with one. -/
def Keyless (part : List Char) : Prop := '=' ∉ part ∨ part.head? = some '='

instance (part : List Char) : Decidable (Keyless part) := inferInstanceAs (Decidable (_ ∨ _))

/-- A part has no key, or it is a key that is not empty, the first equals sign, and a value. -/
theorem keyless_or_keyed (part : List Char) :
    Keyless part ∨ ∃ key value, key ≠ [] ∧ '=' ∉ key ∧ part = key ++ '=' :: value := by
  by_cases hmem : '=' ∈ part
  · obtain ⟨key, value, rfl, hkey⟩ := List.eq_append_cons_of_mem hmem
    cases key with
    | nil => exact .inl (.inr rfl)
    | cons k key => exact .inr ⟨k :: key, value, by simp, hkey, rfl⟩
  · exact .inl (.inl hmem)

/-- A part without a key stands for itself. -/
theorem ofPart_of_keyless {part : List Char} (h : Keyless part) :
    ofPart part = .bare (String.ofList part) := by
  unfold ofPart
  rcases h with hnone | hfirst
  · have hrest : part.dropWhile (· != '=') = [] :=
      List.dropWhile_eq_nil_iff.mpr fun c hc => by simpa using ne_of_mem_of_not_mem hc hnone
    rw [hrest]
    cases part.takeWhile (· != '=') <;> rfl
  · -- What comes before the first equals sign is empty, and that is no key.
    obtain ⟨rest, rfl⟩ := List.head?_eq_some_iff.mp hfirst
    simp

/-- What comes before the first equals sign of a part is the key, and what follows it the value. -/
theorem ofPart_keyed {key : List Char} (hne : key ≠ []) (hkey : '=' ∉ key) (value : List Char) :
    ofPart (key ++ '=' :: value) = .keyed (String.ofList key) (String.ofList value) := by
  have hends : (key ++ '=' :: value).takeWhile (· != '=') = key ∧
      (key ++ '=' :: value).dropWhile (· != '=') = '=' :: value :=
    Text.takeWhile_append_and_dropWhile
      (fun c hc => by simpa using ne_of_mem_of_not_mem hc hkey) (by simp)
  obtain ⟨k, cs, rfl⟩ := List.exists_cons_of_ne_nil hne
  unfold ofPart
  rw [hends.1, hends.2]

/-- A part is written as it was. -/
theorem chars_ofPart (part : List Char) : (ofPart part).chars = part := by
  rcases keyless_or_keyed part with hkeyless | ⟨key, value, hne, hkey, rfl⟩
  · simp [ofPart_of_keyless hkeyless, chars]
  · simp [ofPart_keyed hne hkey, chars]

/-! ## Reading metadata -/

/-- Metadata that are not empty are cut at their bars, and each part is read. -/
theorem parse_some {metadata : String} (h : metadata ≠ "") :
    parse (some metadata) = (splitBars metadata.toList).map ofPart := if_neg h

/-- A text that is not empty has parameters. -/
theorem parse_ne_nil {metadata : String} (h : metadata ≠ "") : parse (some metadata) ≠ [] := by
  simpa [parse_some h] using splitBars_ne_nil metadata.toList

/-- Parameters that were parsed are written as they were. -/
theorem spelling_parse {metadata : String} (h : metadata ≠ "") :
    spelling (parse (some metadata)) = metadata.toList := by
  have hchars : chars ∘ ofPart = id := funext chars_ofPart
  rw [spelling, parse_some h, List.map_map, hchars, List.map_id, intercalate_splitBars]

/-! ## Which parameters can be read as they are written -/

/-- Whether a parameter can be read as it is written. It has no bar, it does not look as if it had a key
when it has none, and its key, if it has one, is not empty and has no equals sign. -/
def Legible : Parameter → Prop
  | .bare text => '|' ∉ text.toList ∧ Keyless text.toList
  | .keyed key value =>
    (key ≠ "" ∧ '|' ∉ key.toList ∧ '=' ∉ key.toList) ∧ '|' ∉ value.toList

instance : DecidablePred Legible
  | .bare _ => inferInstanceAs (Decidable (_ ∧ _))
  | .keyed _ _ => inferInstanceAs (Decidable (_ ∧ _))

/-- Whether parameters can be read as they are written, with bars between them. A single empty
parameter cannot, as metadata that are empty stand for no parameters. -/
structure LegibleList (parameters : List Parameter) : Prop where
  /-- There is at least one. -/
  ne_nil : parameters ≠ []
  /-- They are not a single empty one. -/
  ne_empty : parameters ≠ [.bare ""]
  /-- Each can be read as it is written. -/
  legible : ∀ p ∈ parameters, p.Legible

instance (parameters : List Parameter) : Decidable (LegibleList parameters) :=
  decidable_of_iff (parameters ≠ [] ∧ parameters ≠ [.bare ""] ∧ ∀ p ∈ parameters, p.Legible)
    ⟨fun h => ⟨h.1, h.2.1, h.2.2⟩, fun h => ⟨h.ne_nil, h.ne_empty, h.legible⟩⟩

/-- What stands for a part without bars is legible. -/
theorem legible_ofPart {part : List Char} (h : '|' ∉ part) : (ofPart part).Legible := by
  rcases keyless_or_keyed part with hkeyless | ⟨key, value, hne, hkey, rfl⟩
  · rw [ofPart_of_keyless hkeyless]
    simpa [Legible] using ⟨h, hkeyless⟩
  · rw [List.mem_append, List.mem_cons, not_or, not_or] at h
    rw [ofPart_keyed hne hkey]
    simpa [Legible, hne, hkey] using ⟨h.1, h.2.2⟩

/-- A legible parameter is written without bars, and what is written stands for it. -/
theorem Legible.ofPart_chars {p : Parameter} (h : p.Legible) :
    '|' ∉ p.chars ∧ ofPart p.chars = p := by
  cases p with
  | bare text => exact ⟨h.1, by rw [chars, ofPart_of_keyless h.2, String.ofList_toList]⟩
  | keyed key value =>
    obtain ⟨⟨hne, hbar, hkey⟩, hvalue⟩ := h
    refine ⟨by simp [chars, hbar, hvalue], ?_⟩
    rw [chars, ofPart_keyed (by simpa using hne) hkey, String.ofList_toList, String.ofList_toList]

/-- What metadata stand for is legible. -/
theorem legibleList_parse {metadata : String} (h : metadata ≠ "") :
    LegibleList (parse (some metadata)) where
  ne_nil := parse_ne_nil h
  ne_empty := by
    -- A single empty parameter would have been written with nothing.
    intro hempty
    have hspelling := spelling_parse h
    rw [hempty, spelling_eq_nil_iff.mpr (.inr rfl)] at hspelling
    exact h (by simpa using hspelling.symm)
  legible := by
    rw [parse_some h, List.forall_mem_map]
    exact fun part hpart => legible_ofPart (not_mem_of_mem_splitBars hpart)

/-- Legible parameters are written with something. -/
theorem LegibleList.spelling_ne_empty {parameters : List Parameter} (h : LegibleList parameters) :
    String.ofList (spelling parameters) ≠ "" := by
  have hspelling : spelling parameters ≠ [] := by
    rw [Ne, spelling_eq_nil_iff]
    exact not_or.mpr ⟨h.ne_nil, h.ne_empty⟩
  simpa using hspelling

/-- Legible parameters are read as they are written. -/
theorem LegibleList.parse_spelling {parameters : List Parameter} (h : LegibleList parameters) :
    parse (some (String.ofList (spelling parameters))) = parameters := by
  have hread := fun p hp => (h.legible p hp).ofPart_chars
  rw [parse_some h.spelling_ne_empty, String.toList_ofList,
    splitBars_spelling h.ne_nil fun p hp => (hread p hp).1, List.map_map]
  calc parameters.map (ofPart ∘ chars)
      = parameters.map id := List.map_congr_left fun p hp => (hread p hp).2
    _ = parameters := List.map_id parameters

/-- Parameters can be the result of parsing exactly if there are none or they are legible. -/
theorem exists_parse_eq_iff {parameters : List Parameter} :
    (∃ metadata, parse metadata = parameters) ↔ parameters = [] ∨ LegibleList parameters := by
  constructor
  · rintro ⟨metadata, rfl⟩
    cases metadata with
    | none => exact .inl rfl
    | some text =>
      by_cases htext : text = ""
      · exact .inl (if_pos htext)
      · exact .inr (legibleList_parse htext)
  · rintro (rfl | h)
    · exact ⟨none, rfl⟩
    · exact ⟨_, h.parse_spelling⟩

/-- Metadata that are not empty are written as they were read, legible parameters are read as they are
written, and so the metadata and the lists of legible parameters stand for each other one to one. -/
theorem bijOn_parse :
    (∀ metadata : String, metadata ≠ "" →
      String.ofList (spelling (parse (some metadata))) = metadata) ∧
    (∀ parameters : List Parameter, LegibleList parameters →
      parse (some (String.ofList (spelling parameters))) = parameters) ∧
    Set.BijOn (fun metadata : String => parse (some metadata)) {metadata | metadata ≠ ""}
      {parameters | LegibleList parameters} := by
  have hwritten (metadata : String) (h : metadata ≠ "") :
      String.ofList (spelling (parse (some metadata))) = metadata := by
    rw [spelling_parse h, String.ofList_toList]
  have hinverse : Set.InvOn (fun parameters => String.ofList (spelling parameters))
      (fun metadata : String => parse (some metadata)) {metadata | metadata ≠ ""}
      {parameters | LegibleList parameters} := ⟨hwritten, fun _ h => h.parse_spelling⟩
  exact ⟨hwritten, fun _ h => h.parse_spelling,
    hinverse.bijOn (fun _ h => legibleList_parse h) fun _ h => h.spelling_ne_empty⟩

/-- Equals signs after the first one, a leading one, and empty parameters and values. -/
def manySigns : List Parameter :=
  [.keyed "a" "b=c", .bare "", .bare "=d=", .keyed "wheels" "", .bare ""]

/-- Parameters with many signs are written and read as they were. -/
theorem bijOn_parse_manySigns :
    "a=b=c||=d=|wheels=|" ≠ "" ∧ LegibleList manySigns ∧
      parse (some "a=b=c||=d=|wheels=|") = manySigns ∧
      String.ofList (spelling manySigns) = "a=b=c||=d=|wheels=|" ∧
      parse (some (String.ofList (spelling manySigns))) = manySigns ∧
      ∃ metadata, metadata ≠ "" ∧ parse (some metadata) = manySigns := by
  have hne : "a=b=c||=d=|wheels=|" ≠ "" := by decide
  have hlegible : LegibleList manySigns := by decide
  have hparse : parse (some "a=b=c||=d=|wheels=|") = manySigns := by decide
  obtain ⟨hwritten, hread, hbijection⟩ := bijOn_parse
  refine ⟨hne, hlegible, hparse, ?_, hread manySigns hlegible, hbijection.surjOn hlegible⟩
  rw [← hparse]
  exact hwritten _ hne

end Parameter

end Transclude
