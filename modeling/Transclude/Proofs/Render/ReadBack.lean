import Transclude.Proofs.Render.Written
import Transclude.Proofs.Text.Mark

/-!
# Reading back what is written

What is written for names, for texts, for attributes and for comments can be read back: it says what it
was written for, and where it ends. That is `ReadsBack`, and it is said without a reader: what is written
for two things, each with something after it, is the same only if the two things are and what comes
after them is.
-/

namespace Transclude

/-- What is written for a valid thing can be read back, if what comes after it is as it has to be. -/
def ReadsBack {α : Type} (write : α → List Char) (Valid : α → Prop) (After : List Char → Prop) :
    Prop :=
  ∀ a b rest others, Valid a → Valid b → After rest → After others →
    write a ++ rest = write b ++ others → a = b ∧ rest = others

namespace ReadsBack

variable {α : Type} {write : α → List Char} {Valid : α → Prop}

/-- What a reader reads back can be read back. -/
theorem of_reader (read : List Char → Option (α × List Char))
    (hread : ∀ a rest, read (write a ++ rest) = some (a, rest)) :
    ReadsBack write (fun _ => True) fun _ => True := by
  intro a b rest others _ _ _ _ heq
  have hboth : some (a, rest) = some (b, others) := by rw [← hread, ← hread, heq]
  simpa using hboth

/-- Characters of a kind can be read back up to one of another kind. -/
theorem chars (belongs : Char → Bool) :
    ReadsBack id (fun cs => ∀ c ∈ cs, belongs c = true)
      (fun rest => ∀ c ∈ rest.head?, belongs c = false) := by
  intro cs ds rest others hcs hds hrest hothers heq
  obtain ⟨htake, hdrop⟩ := Text.takeWhile_append_and_dropWhile hcs hrest
  obtain ⟨htake', hdrop'⟩ := Text.takeWhile_append_and_dropWhile hds hothers
  rw [id, id] at heq
  rw [heq] at htake hdrop
  exact ⟨htake.symm.trans htake', hdrop.symm.trans hdrop'⟩

/-- A list of things that can be read back whatever comes after them can be read back up to a
character that nothing written begins with. -/
theorem flatMap {stop : Char} (hwrite : ReadsBack write Valid fun _ => True)
    (hstop : ∀ a, Valid a → ∃ c cs, write a = c :: cs ∧ c ≠ stop) :
    ReadsBack (List.flatMap write) (fun as => ∀ a ∈ as, Valid a)
      (fun rest => ∀ c ∈ rest.head?, c = stop) := by
  -- Nothing else can stand where a list has ended.
  have hend (b : α) (bs rest others : List Char) (hb : Valid b)
      (hrest : ∀ c ∈ rest.head?, c = stop) : rest ≠ write b ++ bs ++ others := by
    obtain ⟨c, cs, hwritten, hne⟩ := hstop b hb
    rintro rfl
    exact hne (hrest c (by simp [hwritten]))
  intro as
  induction as with
  | nil =>
    intro bs rest others _ hbs hrest hothers heq
    cases bs with
    | nil => exact ⟨rfl, heq⟩
    | cons b bs => exact absurd heq (hend b _ rest others (hbs b List.mem_cons_self) hrest)
  | cons a as ih =>
    intro bs rest others has hbs hrest hothers heq
    rw [List.forall_mem_cons] at has
    cases bs with
    | nil => exact absurd heq.symm (hend a _ others rest has.1 hothers)
    | cons b bs =>
      rw [List.forall_mem_cons] at hbs
      simp only [List.flatMap_cons, List.append_assoc] at heq
      obtain ⟨rfl, hlists⟩ := hwrite a b _ _ has.1 hbs.1 trivial trivial heq
      obtain ⟨rfl, hafter⟩ := ih bs rest others has.2 hbs.2 hrest hothers hlists
      exact ⟨rfl, hafter⟩

/-- A text can be read back up to a character that no character is written with first, if each
character can be read. -/
theorem text {code : Char → List Char} {stop : Char} (read : List Char → Option (Char × List Char))
    (hread : ∀ c rest, read (code c ++ rest) = some (c, rest))
    (hbegins : ∀ c, ∃ d ds, code c = d :: ds ∧ d ≠ stop) :
    ReadsBack (fun s : String => s.toList.flatMap code) (fun _ => True)
      fun rest => ∀ c ∈ rest.head?, c = stop := by
  intro s t rest others _ _ hrest hothers heq
  obtain ⟨hst, hafter⟩ := (of_reader read hread).flatMap (fun c _ => hbegins c) _ _ rest others
    (by simp) (by simp) hrest hothers heq
  exact ⟨String.toList_inj.mp hst, hafter⟩

end ReadsBack

/-! ## Texts -/

namespace Text

/-- Reads one character, which may be written as a reference. -/
def readChar : List Char → Option (Char × List Char)
  | '&' :: 'q' :: 'u' :: 'o' :: 't' :: ';' :: rest => some ('"', rest)
  | '&' :: '#' :: 'x' :: '2' :: '7' :: ';' :: rest => some ('\'', rest)
  | '&' :: 'a' :: 'm' :: 'p' :: ';' :: rest => some ('&', rest)
  | '&' :: 'l' :: 't' :: ';' :: rest => some ('<', rest)
  | '&' :: 'g' :: 't' :: ';' :: rest => some ('>', rest)
  | c :: rest => some (c, rest)
  | [] => none

/-- A character that is no ampersand is read as itself. -/
theorem readChar_cons {c : Char} (hc : c ≠ '&') (rest : List Char) :
    readChar (c :: rest) = some (c, rest) := by
  unfold readChar
  split <;> simp_all

/-- A character of a text between tags is read back. -/
theorem readChar_escapeChar (c : Char) (rest : List Char) :
    readChar (escapeChar c ++ rest) = some (c, rest) := by
  unfold escapeChar
  split
  · next h => rw [h]; rfl
  · next hamp =>
    split
    · next h => rw [h]; rfl
    · split
      · next h => rw [h]; rfl
      · exact readChar_cons hamp rest

/-- A character of an attribute's value is read back. -/
theorem readChar_escapeAttrChar (c : Char) (rest : List Char) :
    readChar (escapeAttrChar c ++ rest) = some (c, rest) := by
  unfold escapeAttrChar
  split
  · next h => rw [h]; rfl
  · split
    · next h => rw [h]; rfl
    · exact readChar_escapeChar c rest

/-- A character of a text between tags is written with an ampersand first or with itself, and not with
an angle bracket. -/
theorem escapeChar_begins (c : Char) :
    ∃ d ds, escapeChar c = d :: ds ∧ (d = '&' ∨ d = c) ∧ d ≠ '<' := by
  unfold escapeChar
  split
  · exact ⟨_, _, rfl, .inl rfl, by decide⟩
  · split
    · exact ⟨_, _, rfl, .inl rfl, by decide⟩
    · next hopen =>
      split
      · exact ⟨_, _, rfl, .inl rfl, by decide⟩
      · exact ⟨_, _, rfl, .inr rfl, hopen⟩

/-- A character of an attribute's value is not written with a quotation mark first. -/
theorem escapeAttrChar_begins (c : Char) : ∃ d ds, escapeAttrChar c = d :: ds ∧ d ≠ '"' := by
  unfold escapeAttrChar
  split
  · exact ⟨_, _, rfl, by decide⟩
  · next hquote =>
    split
    · exact ⟨_, _, rfl, by decide⟩
    · obtain ⟨d, ds, hwritten, hfirst, -⟩ := escapeChar_begins c
      refine ⟨d, ds, hwritten, ?_⟩
      rcases hfirst with rfl | rfl
      · decide
      · exact hquote

/-- A text between tags can be read back up to the next tag. -/
theorem readsBack_escape :
    ReadsBack (fun s => (escape s).toList) (fun _ => True)
      fun rest => ∀ c ∈ rest.head?, c = '<' := by
  simp only [escape, String.toList_ofList]
  refine .text readChar readChar_escapeChar fun c => ?_
  obtain ⟨d, ds, hwritten, -, hne⟩ := escapeChar_begins c
  exact ⟨d, ds, hwritten, hne⟩

/-- An attribute's value can be read back up to the quotation mark that ends it. -/
theorem readsBack_escapeAttr :
    ReadsBack (fun s => (escapeAttr s).toList) (fun _ => True)
      fun rest => ∀ c ∈ rest.head?, c = '"' := by
  simp only [escapeAttr, String.toList_ofList]
  exact .text readChar readChar_escapeAttrChar escapeAttrChar_begins

/-! ## Names -/

/-- Whether a character is a letter, a digit or a hyphen. -/
def isNameChar (c : Char) : Bool := c.isAlphanum || c == '-'

/-- Whether a text is a name of letters, digits and hyphens. -/
def isName (s : String) : Bool := s != "" && s.toList.all isNameChar

/-- A name can be read back up to what stands in no name. -/
theorem readsBack_name :
    ReadsBack String.toList (fun s => isName s = true)
      fun rest => ∀ c ∈ rest.head?, isNameChar c = false := by
  intro s t rest others hs ht hrest hothers heq
  rw [isName, Bool.and_eq_true, List.all_eq_true] at hs ht
  obtain ⟨hst, hafter⟩ := ReadsBack.chars isNameChar _ _ rest others hs.2 ht.2 hrest hothers heq
  exact ⟨String.toList_inj.mp hst, hafter⟩

/-! ## Comments -/

/-- The end of a comment. -/
def commentEnd : List Char := "-->".toList

/-- Where a comment without the end of one in it begins, its end does not. -/
theorem commentEnd_append_ne {c : Char} {cs : List Char} (h : ¬ commentEnd <:+: c :: cs)
    (rest others : List Char) : commentEnd ++ rest ≠ c :: cs ++ commentEnd ++ others := by
  have hend : commentEnd = ['-', '-', '>'] := rfl
  rw [hend] at h ⊢
  intro heq
  -- The third character of the end would have to be a hyphen, or the end would be in the comment.
  match cs with
  | [] => simp at heq
  | [d] => simp at heq
  | d :: e :: es =>
    obtain ⟨rfl, rfl, rfl, -⟩ : '-' = c ∧ '-' = d ∧ '>' = e ∧ _ := by simpa using heq
    exact h ⟨[], es, rfl⟩

/-- A comment without the end of one in it can be read back. -/
theorem readsBack_comment :
    ReadsBack (fun s : String => s.toList ++ commentEnd) (fun s => ¬ commentEnd <:+: s.toList)
      fun _ => True := by
  have hchars (cs ds rest others : List Char) (hcs : ¬ commentEnd <:+: cs)
      (hds : ¬ commentEnd <:+: ds)
      (heq : cs ++ commentEnd ++ rest = ds ++ commentEnd ++ others) : cs = ds ∧ rest = others := by
    induction cs generalizing ds with
    | nil =>
      cases ds with
      | nil => exact ⟨rfl, List.append_cancel_left heq⟩
      | cons d ds => exact absurd heq (commentEnd_append_ne hds rest others)
    | cons c cs ih =>
      cases ds with
      | nil => exact absurd heq.symm (commentEnd_append_ne hcs others rest)
      | cons d ds =>
        obtain ⟨rfl, htails⟩ := List.cons.inj heq
        obtain ⟨rfl, hafter⟩ := ih ds (fun hin => hcs (hin.trans (List.suffix_cons c cs).isInfix))
          (fun hin => hds (hin.trans (List.suffix_cons c ds).isInfix)) htails
        exact ⟨rfl, hafter⟩
  intro s t rest others hs ht _ _ heq
  obtain ⟨hst, hafter⟩ := hchars _ _ rest others hs ht heq
  exact ⟨String.toList_inj.mp hst, hafter⟩

end Text

/-! ## Attributes -/

/-- Whether a property has an attribute of its own name, and a text as its value. -/
def isOwnAttribute (property : String × Value) : Bool :=
  Text.isName property.1 && (attributeNames.lookup property.1).isNone && property.2.isStr

/-- An attribute with a blank before it. -/
def spacedAttribute (property : String × Value) : List Char :=
  ' ' :: (valuedAttribute property.1 property.2).toList

/-- An attribute of its own name can be read back. -/
theorem readsBack_spacedAttribute :
    ReadsBack spacedAttribute (fun property => isOwnAttribute property = true) fun _ => True := by
  intro p q rest others hp hq _ _ heq
  obtain ⟨name, value⟩ := p
  obtain ⟨name', value'⟩ := q
  simp only [isOwnAttribute, Bool.and_eq_true] at hp hq
  obtain ⟨⟨hname, -⟩, hvalue⟩ := hp
  obtain ⟨⟨hname', -⟩, hvalue'⟩ := hq
  obtain ⟨s, rfl⟩ : ∃ s, value = .str s := by
    cases value <;> simp_all [Value.isStr]
  obtain ⟨s', rfl⟩ : ∃ s, value' = .str s := by
    cases value' <;> simp_all [Value.isStr]
  have hchars (name s : String) (rest : List Char) : spacedAttribute (name, .str s) ++ rest =
      ' ' :: (name.toList ++ '=' :: '"' :: ((Text.escapeAttr s).toList ++ '"' :: rest)) := by
    simp [spacedAttribute, valuedAttribute, propertyText, Value.plain]
  rw [hchars, hchars] at heq
  obtain ⟨rfl, hrest⟩ := Text.readsBack_name name name' _ _ hname hname' (by simp [Text.isNameChar])
    (by simp [Text.isNameChar]) (List.cons.inj heq).2
  obtain ⟨rfl, hafter⟩ := Text.readsBack_escapeAttr s s' ('"' :: rest) ('"' :: others) trivial trivial
    (by simp) (by simp) (by simpa using hrest)
  exact ⟨rfl, (List.cons.inj hafter).2⟩

/-- The attributes of a tag can be read back up to the end of the tag. -/
theorem readsBack_spacedAttributes :
    ReadsBack (List.flatMap spacedAttribute)
      (fun properties => ∀ property ∈ properties, isOwnAttribute property = true)
      fun rest => ∀ c ∈ rest.head?, c = '>' :=
  readsBack_spacedAttribute.flatMap fun _ _ => ⟨_, _, rfl, by decide⟩

end Transclude
