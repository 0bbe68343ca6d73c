import DataContract.Proofs.Text.Search
import DataContract.TypeExpr.Parser

/-!
# The grammar of type expressions

    type := name ('<' type (',' type)* '>')? ('[' ']' | '?')*

A derivation is kept together with the blanks before its tokens, so that it spells a text and refers
to a type expression.

Results:

* `Phrase.text_append_inj`: what a type spells ends where no name character, argument or suffix
  follows, so that it is told apart from the text behind it.
* `Sentence.text_injective`: a text has one derivation at most.
-/

namespace DataContract.TypeExpr

/-! ## Characters -/

/-- A run of name characters. -/
def IsName (name : String) : Prop := name.toList ≠ [] ∧ ∀ c ∈ name.toList, isNameChar c = true

instance (name : String) : Decidable (IsName name) :=
  decidable_of_iff (name.toList ≠ [] ∧ name.toList.all isNameChar = true) <| by
    rw [IsName, List.all_eq_true]

/-- The code points of the blanks. -/
def blankCodes : List Nat :=
  [0x9, 0xA, 0xB, 0xC, 0xD, 0x20, 0x85, 0xA0, 0x1680, 0x2000, 0x2001, 0x2002, 0x2003, 0x2004,
    0x2005, 0x2006, 0x2007, 0x2008, 0x2009, 0x200A, 0x2028, 0x2029, 0x202F, 0x205F, 0x3000]

theorem toNat_mem_blankCodes {c : Char} (h : Text.isBlank c = true) : c.toNat ∈ blankCodes := by
  simp only [Text.isBlank, Bool.or_eq_true, Bool.and_eq_true, decide_eq_true_eq,
    beq_iff_eq] at h
  simp only [blankCodes, List.mem_cons, List.not_mem_nil, or_false]
  omega

theorem isBlank_eq_false {c : Char} (h : isNameChar c = true) : Text.isBlank c = false := by
  have none_is_name : ∀ n ∈ blankCodes, isNameChar (Char.ofNat n) = false := by decide +kernel
  by_contra hblank
  have hname := none_is_name c.toNat (toNat_mem_blankCodes (by simpa using hblank))
  rw [Char.ofNat_toNat, h] at hname
  exact absurd hname (by simp)

theorem isNameChar_eq_false {c : Char} (h : Text.isBlank c = true) : isNameChar c = false := by
  by_contra hname
  rw [isBlank_eq_false (by simpa using hname)] at h
  cases h

/-- The punctuation is neither blank nor part of a name. -/
theorem delimiters_plain : ∀ c ∈ [',', '>', '[', ']', '<', '?'],
    isNameChar c = false ∧ Text.isBlank c = false := by
  intro c hc
  simp only [List.mem_cons, List.not_mem_nil, or_false] at hc
  rcases hc with rfl | rfl | rfl | rfl | rfl | rfl <;> decide +kernel

/-! ## Derivations -/

/-- The blanks before a token. -/
abbrev Gap := { text : List Char // ∀ c ∈ text, Text.isBlank c = true }

/-- A name as a token. -/
abbrev Name := { name : String // IsName name }

/-- What may follow a type: `[` and `]`, or `?`. -/
inductive Suffix where
  | array (gap inner : Gap)
  | nullable (gap : Gap)

mutual

/-- A type as it is derived, with the blanks before each token. -/
structure Phrase where
  gap : Gap
  name : Name
  arguments : Arguments
  suffixes : List Suffix

/-- The arguments of a name. -/
inductive Arguments where
  | none
  /-- `<` and a type before what else the list holds. -/
  | list (gap : Gap) (first : Phrase) (more : MoreArguments)

/-- What follows an argument. -/
inductive MoreArguments where
  /-- `>`. -/
  | close (gap : Gap)
  /-- `,` and a type before what else the list holds. -/
  | comma (gap : Gap) (next : Phrase) (more : MoreArguments)

end

/-- A type with the blanks at the end of the text. -/
structure Sentence where
  type : Phrase
  gap : Gap

/-! ## What a derivation spells -/

/-- The text of a suffix. -/
def Suffix.text : Suffix → List Char
  | .array gap inner => gap.1 ++ '[' :: (inner.1 ++ [']'])
  | .nullable gap => gap.1 ++ ['?']

mutual

/-- The text of a type. -/
def Phrase.text : Phrase → List Char
  | ⟨gap, name, arguments, suffixes⟩ =>
    gap.1 ++ (name.1.toList ++ (arguments.text ++ suffixes.flatMap Suffix.text))

/-- The text of an argument list. -/
def Arguments.text : Arguments → List Char
  | .none => []
  | .list gap first more => gap.1 ++ '<' :: (first.text ++ more.text)

/-- The text behind an argument. -/
def MoreArguments.text : MoreArguments → List Char
  | .close gap => gap.1 ++ ['>']
  | .comma gap next more => gap.1 ++ ',' :: (next.text ++ more.text)

end

/-- The whole text. -/
def Sentence.text (s : Sentence) : List Char := s.type.text ++ s.gap.1

/-! ## What a derivation refers to -/

/-- The type that a name with arguments refers to: `void` alone is no name. -/
def applied (name : String) (args : List TypeExpr) : TypeExpr :=
  if name = "void" ∧ args = [] then .void else .named name args

/-- The type with a suffix behind it. -/
def Suffix.wrap (inner : TypeExpr) : Suffix → TypeExpr
  | .array _ _ => .array inner
  | .nullable _ => inner.nullable

mutual

/-- The type expression of a derivation, its suffixes taken from left to right. -/
def Phrase.tree : Phrase → TypeExpr
  | ⟨_, name, arguments, suffixes⟩ => suffixes.foldl Suffix.wrap (applied name.1 arguments.trees)

/-- The type expressions of an argument list. -/
def Arguments.trees : Arguments → List TypeExpr
  | .none => []
  | .list _ first more => first.tree :: more.trees

/-- The type expressions behind an argument. -/
def MoreArguments.trees : MoreArguments → List TypeExpr
  | .close _ => []
  | .comma _ next more => next.tree :: more.trees

end

/-! ## A text has one derivation -/

/-- The first character of the text that is not blank, if there is one, is one of these. -/
def FirstVisible (delimiters text : List Char) : Prop :=
  ∀ c ∈ text.find? fun c => !Text.isBlank c, c ∈ delimiters

section Derivations

variable {delimiters more rest rest' : List Char} {c d : Char}

theorem FirstVisible.mono (h : FirstVisible delimiters rest) (hsub : delimiters ⊆ more) :
    FirstVisible more rest :=
  fun c hc => hsub (h c hc)

theorem find?_gap (gap : Gap) (hc : Text.isBlank c = false) :
    (gap.1 ++ c :: rest).find? (fun c => !Text.isBlank c) = some c := by
  have hblank : gap.1.find? (fun c => !Text.isBlank c) = none := by
    rw [List.find?_eq_none]
    intro d hd
    simp [gap.2 d hd]
  simp [List.find?_append, hblank, hc]

theorem firstVisible_gap (gap : Gap) (hc : Text.isBlank c = false) :
    FirstVisible delimiters (gap.1 ++ c :: rest) ↔ c ∈ delimiters := by
  rw [FirstVisible, find?_gap gap hc]
  simp

theorem firstVisible_blank (gap : Gap) : FirstVisible delimiters gap.1 := by
  intro c hc
  have hplain := List.find?_some hc
  rw [gap.2 c (List.mem_of_find?_eq_some hc)] at hplain
  cases hplain

/-- Before a delimiter a name ends. -/
theorem FirstVisible.head?_not_name (h : FirstVisible [',', '>', '[', ']', '<', '?'] rest) :
    ∀ c ∈ rest.head?, isNameChar c = false := by
  cases rest with
  | nil => intro c hc; cases hc
  | cons c rest =>
    intro d hd
    obtain rfl : c = d := by simpa using hd
    by_cases hblank : Text.isBlank c = true
    · exact isNameChar_eq_false hblank
    · exact (delimiters_plain c (h c (by simp [hblank]))).1

/-- The blanks before a token end with it. -/
theorem gap_inj {gap gap' : Gap} (hc : Text.isBlank c = false) (hd : Text.isBlank d = false)
    (h : gap.1 ++ c :: rest = gap'.1 ++ d :: rest') : gap = gap' ∧ c = d ∧ rest = rest' := by
  obtain ⟨hgap, hrest⟩ :=
    Text.append_inj_of_kind gap.2 gap'.2 (by simpa using hc) (by simpa using hd) h
  obtain ⟨rfl, rfl⟩ := List.cons.inj hrest
  exact ⟨Subtype.ext hgap, rfl, rfl⟩

theorem firstVisible_suffix (s : Suffix) : FirstVisible ['[', '?'] (s.text ++ rest) := by
  cases s <;>
  · rw [Suffix.text, List.append_assoc, List.cons_append,
      firstVisible_gap _ (by simp [delimiters_plain])]
    simp

/-- The text behind a type, where the type does not go on. -/
abbrev EndsType : List Char → Prop := FirstVisible [',', '>']

/-- The text behind the name and the arguments of a type. -/
abbrev EndsArguments : List Char → Prop := FirstVisible [',', '>', '[', '?']

theorem EndsType.suffixes (h : EndsType rest) (l : List Suffix) :
    EndsArguments (l.flatMap Suffix.text ++ rest) := by
  cases l with
  | nil => exact h.mono (by simp)
  | cons s l =>
    rw [List.flatMap_cons, List.append_assoc]
    exact (firstVisible_suffix s).mono (by simp)

theorem firstVisible_list {gap : Gap} {first : Phrase} {more : MoreArguments} :
    FirstVisible delimiters ((Arguments.list gap first more).text ++ rest) ↔ '<' ∈ delimiters := by
  rw [Arguments.text, List.append_assoc, List.cons_append,
    firstVisible_gap gap (by simp [delimiters_plain])]

theorem EndsArguments.arguments (h : EndsArguments rest) (a : Arguments) :
    FirstVisible [',', '>', '[', ']', '<', '?'] (a.text ++ rest) := by
  cases a with
  | none => exact h.mono (by simp)
  | list gap first more => exact firstVisible_list.mpr (by simp)

theorem endsType_more (m : MoreArguments) : EndsType (m.text ++ rest) := by
  cases m <;>
  · rw [MoreArguments.text, List.append_assoc, List.cons_append, EndsType,
      firstVisible_gap _ (by simp [delimiters_plain])]
    simp

theorem not_endsType_suffix (s : Suffix) : ¬ EndsType (s.text ++ rest) := by
  cases s <;>
  · rw [Suffix.text, List.append_assoc, List.cons_append, EndsType,
      firstVisible_gap _ (by simp [delimiters_plain])]
    simp

theorem Suffix.text_append_inj {s s' : Suffix} (h : s.text ++ rest = s'.text ++ rest') :
    s = s' ∧ rest = rest' := by
  cases s <;> cases s' <;>
    simp only [Suffix.text, List.append_assoc, List.cons_append, List.nil_append] at h <;>
    obtain ⟨rfl, hc, hmore⟩ :=
      gap_inj (by simp [delimiters_plain]) (by simp [delimiters_plain]) h
  case array.array =>
    obtain ⟨rfl, -, rfl⟩ :=
      gap_inj (by simp [delimiters_plain]) (by simp [delimiters_plain]) hmore
    exact ⟨rfl, rfl⟩
  case array.nullable => exact absurd hc (by decide)
  case nullable.array => exact absurd hc (by decide)
  case nullable.nullable => exact ⟨rfl, hmore⟩

theorem suffixes_inj {l l' : List Suffix} (hrest : EndsType rest) (hrest' : EndsType rest')
    (h : l.flatMap Suffix.text ++ rest = l'.flatMap Suffix.text ++ rest') :
    l = l' ∧ rest = rest' := by
  induction l generalizing l' with
  | nil =>
    cases l' with
    | nil => exact ⟨rfl, h⟩
    | cons s' l' =>
      rw [List.flatMap_nil, List.nil_append, List.flatMap_cons, List.append_assoc] at h
      exact absurd (h ▸ hrest) (not_endsType_suffix s')
  | cons s l ih =>
    cases l' with
    | nil =>
      rw [List.flatMap_nil, List.nil_append, List.flatMap_cons, List.append_assoc] at h
      exact absurd (h ▸ hrest') (not_endsType_suffix s)
    | cons s' l' =>
      simp only [List.flatMap_cons, List.append_assoc] at h
      obtain ⟨rfl, hl⟩ := Suffix.text_append_inj h
      obtain ⟨rfl, hsame⟩ := ih hl
      exact ⟨rfl, hsame⟩

/-- A name begins with a character that is not blank. -/
theorem Name.head?_not_blank (name : Name) :
    ∀ c ∈ (name.1.toList ++ rest).head?, Text.isBlank c = false := by
  intro c hc
  cases hname : name.1.toList with
  | nil => exact absurd hname name.2.1
  | cons d more =>
    rw [hname] at hc
    obtain rfl : d = c := by simpa using hc
    exact isBlank_eq_false (name.2.2 d (by simp [hname]))

end Derivations

mutual

/-- Behind a type its derivation and what follows it can be told from the text. -/
theorem Phrase.text_append_inj {p p' : Phrase} {rest rest' : List Char} (hrest : EndsType rest)
    (hrest' : EndsType rest') (h : p.text ++ rest = p'.text ++ rest') : p = p' ∧ rest = rest' := by
  obtain ⟨gap, name, arguments, suffixes⟩ := p
  obtain ⟨gap', name', arguments', suffixes'⟩ := p'
  simp only [Phrase.text, List.append_assoc] at h
  obtain ⟨hgap, hbehind⟩ :=
    Text.append_inj_of_kind gap.2 gap'.2 name.head?_not_blank name'.head?_not_blank h
  have hends := hrest.suffixes suffixes
  have hends' := hrest'.suffixes suffixes'
  obtain ⟨hname, harguments⟩ := Text.append_inj_of_kind name.2.2 name'.2.2
    (hends.arguments arguments).head?_not_name (hends'.arguments arguments').head?_not_name hbehind
  obtain ⟨rfl, hsuffixes⟩ := Arguments.text_append_inj hends hends' harguments
  obtain ⟨rfl, hsame⟩ := suffixes_inj hrest hrest' hsuffixes
  obtain rfl : gap = gap' := Subtype.ext hgap
  obtain rfl : name = name' := Subtype.ext (String.toList_inj.mp hname)
  exact ⟨rfl, hsame⟩

theorem Arguments.text_append_inj {a a' : Arguments} {rest rest' : List Char}
    (hrest : EndsArguments rest) (hrest' : EndsArguments rest')
    (h : a.text ++ rest = a'.text ++ rest') : a = a' ∧ rest = rest' := by
  match a, a' with
  | .none, .none => exact ⟨rfl, h⟩
  | .none, .list gap' first' more' =>
    obtain rfl : rest = _ := h
    exact absurd (firstVisible_list.mp hrest) (by simp)
  | .list gap first more, .none =>
    obtain rfl : _ = rest' := h
    exact absurd (firstVisible_list.mp hrest') (by simp)
  | .list gap first more, .list gap' first' more' =>
    simp only [Arguments.text, List.append_assoc, List.cons_append] at h
    obtain ⟨rfl, -, hfirst⟩ :=
      gap_inj (by simp [delimiters_plain]) (by simp [delimiters_plain]) h
    obtain ⟨rfl, hmore⟩ := Phrase.text_append_inj (endsType_more more) (endsType_more more') hfirst
    obtain ⟨rfl, hsame⟩ := MoreArguments.text_append_inj hmore
    exact ⟨rfl, hsame⟩

theorem MoreArguments.text_append_inj {m m' : MoreArguments} {rest rest' : List Char}
    (h : m.text ++ rest = m'.text ++ rest') : m = m' ∧ rest = rest' := by
  match m, m' with
  | .close gap, .close gap' =>
    simp only [MoreArguments.text, List.append_assoc, List.cons_append, List.nil_append] at h
    obtain ⟨rfl, -, hsame⟩ :=
      gap_inj (by simp [delimiters_plain]) (by simp [delimiters_plain]) h
    exact ⟨rfl, hsame⟩
  | .close gap, .comma gap' next' more' =>
    simp only [MoreArguments.text, List.append_assoc, List.cons_append, List.nil_append] at h
    obtain ⟨-, hc, -⟩ :=
      gap_inj (by simp [delimiters_plain]) (by simp [delimiters_plain]) h
    exact absurd hc (by decide)
  | .comma gap next more, .close gap' =>
    simp only [MoreArguments.text, List.append_assoc, List.cons_append, List.nil_append] at h
    obtain ⟨-, hc, -⟩ :=
      gap_inj (by simp [delimiters_plain]) (by simp [delimiters_plain]) h
    exact absurd hc (by decide)
  | .comma gap next more, .comma gap' next' more' =>
    simp only [MoreArguments.text, List.append_assoc, List.cons_append] at h
    obtain ⟨rfl, -, hnext⟩ :=
      gap_inj (by simp [delimiters_plain]) (by simp [delimiters_plain]) h
    obtain ⟨rfl, hmore⟩ := Phrase.text_append_inj (endsType_more more) (endsType_more more') hnext
    obtain ⟨rfl, hsame⟩ := MoreArguments.text_append_inj hmore
    exact ⟨rfl, hsame⟩

end

/-- A text has one derivation at most. -/
theorem Sentence.text_injective : Function.Injective Sentence.text := by
  rintro ⟨p, gap⟩ ⟨p', gap'⟩ h
  obtain ⟨rfl, hgap⟩ := Phrase.text_append_inj (firstVisible_blank gap) (firstVisible_blank gap') h
  obtain rfl : gap = gap' := Subtype.ext hgap
  rfl

end DataContract.TypeExpr
