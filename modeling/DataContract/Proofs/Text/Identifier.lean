import DataContract.Proofs.Text.Search
import DataContract.Text.Identifier

/-!
# Identifiers and quoted names

An identifier is made longer by further letters, digits and underscores only.  A quoted name is read
back: a backslash makes the next character part of the name, and the first quote without one ends
it.

Results:

* `isIdentifier_iff_isWord`: an identifier is made longer by letters, digits and underscores.
* `escaped_eq_replaceAll`: a name is escaped by two replacements, that of backslashes first.
* `readQuoted_escaped`: what is read after an opening quote.
-/

namespace DataContract.Text

/-! ## Words -/

/-- Letters, digits and underscores of ASCII only. -/
def IsWord (text : String) : Prop := ∀ c ∈ text.toList, isIdentifierChar c = true

instance (text : String) : Decidable (IsWord text) :=
  decidable_of_iff (text.toList.all isIdentifierChar = true) List.all_eq_true

/-- The first 128 characters only. -/
def IsAscii (text : String) : Prop := ∀ c ∈ text.toList, c.toNat < 0x80

instance (text : String) : Decidable (IsAscii text) :=
  decidable_of_iff (text.toList.all (·.toNat < 0x80) = true) <| by
    simp [IsAscii]

theorem isWord_append {text more : String} :
    IsWord (text ++ more) ↔ IsWord text ∧ IsWord more := by
  rw [IsWord, String.toList_append, List.forall_mem_append]
  rfl

theorem isWord_intercalate {separator : String} (hseparator : IsWord separator) :
    ∀ {texts : List String}, IsWord (separator.intercalate texts) ↔ ∀ text ∈ texts, IsWord text
  | [] => by simp [IsWord]
  | [text] => by simp
  | text :: more :: texts => by
    rw [String.intercalate_cons_cons, isWord_append, isWord_append, isWord_intercalate hseparator,
      List.forall_mem_cons (a := text), and_iff_left hseparator]

theorem isWord_repr (n : ℕ) : IsWord n.repr := by
  intro c hc
  rw [Nat.repr_eq_ofList_toDigits, String.toList_ofList] at hc
  have hdigit := Nat.isDigit_of_mem_toDigits (by decide) (by decide) hc
  simp [isIdentifierChar, Char.isAlphanum, hdigit]

/-! ## Identifiers -/

section Identifiers

variable {name : String}

theorem isIdentifierChar_of_isIdentifierStart {c : Char} (h : isIdentifierStart c = true) :
    isIdentifierChar c = true := by
  simp only [isIdentifierStart, isIdentifierChar, Char.isAlphanum, Bool.or_eq_true] at h ⊢
  exact h.imp_left Or.inl

/-- An identifier is a word that does not begin with a digit. -/
theorem isIdentifier_iff : isIdentifier name = true ↔
    (∃ c ∈ name.toList.head?, isIdentifierStart c = true) ∧ IsWord name := by
  rw [isIdentifier, IsWord]
  cases name.toList with
  | nil => simp
  | cons first rest =>
    simp only [Bool.and_eq_true, List.all_eq_true, List.head?_cons, Option.mem_some_iff,
      exists_eq_left', List.forall_mem_cons]
    exact and_congr_right fun hfirst =>
      (and_iff_right (isIdentifierChar_of_isIdentifierStart hfirst)).symm

theorem isWord_of_isIdentifier (h : isIdentifier name = true) : IsWord name :=
  (isIdentifier_iff.mp h).2

/-- What an identifier is made longer to is an identifier if it is a word. -/
theorem isIdentifier_iff_isWord {text : String} (h : isIdentifier name = true)
    (hbegins : name.toList <+: text.toList) : isIdentifier text = true ↔ IsWord text := by
  obtain ⟨⟨first, hfirst, hstart⟩, -⟩ := isIdentifier_iff.mp h
  obtain ⟨more, hmore⟩ := hbegins
  rw [isIdentifier_iff, and_iff_right]
  rw [← hmore, List.head?_append, hfirst]
  exact ⟨first, rfl, hstart⟩

end Identifiers

/-! ## Quoted names -/

/-- Backslashes are replaced first, so that those in front of quotes stay as they are. -/
theorem escaped_eq_replaceAll (text : String) : (escaped text).toList =
    replaceAll ['"'] ['\\', '"'] (replaceAll ['\\'] ['\\', '\\'] text.toList) := by
  rw [escaped, String.toList_ofList, replaceAll_singleton, replaceAll_singleton, List.flatMap_assoc]
  refine List.flatMap_congr fun c _ => ?_
  rw [escapeQuoted]
  by_cases hslash : c = '\\'
  · rw [hslash]
    rfl
  · by_cases hquote : c = '"' <;> simp [hslash, hquote]

/-- The name up to the closing quote, and what stands behind it. -/
def readQuoted : List Char → Option (List Char × List Char)
  | [] => none
  | '"' :: rest => some ([], rest)
  | '\\' :: c :: rest => (readQuoted rest).map fun (name, behind) => (c :: name, behind)
  | c :: rest => (readQuoted rest).map fun (name, behind) => (c :: name, behind)

theorem readQuoted_escapeQuoted (c : Char) (rest : List Char) :
    readQuoted (escapeQuoted c ++ rest) =
      (readQuoted rest).map fun (name, behind) => (c :: name, behind) := by
  rw [escapeQuoted]
  split_ifs with hspecial
  · rfl
  · rw [not_or] at hspecial
    rw [List.singleton_append, readQuoted]
    · exact hspecial.1
    · rintro d more rfl -
      exact hspecial.2 rfl

/-- The first quote without a backslash is the closing one, and the name is read back. -/
theorem readQuoted_escaped (text : String) (rest : List Char) :
    readQuoted ((escaped text).toList ++ '"' :: rest) = some (text.toList, rest) := by
  rw [escaped, String.toList_ofList]
  induction text.toList with
  | nil => rfl
  | cons c name ih =>
    rw [List.flatMap_cons, List.append_assoc, readQuoted_escapeQuoted, ih]
    rfl

end DataContract.Text
