import DataContract.Proofs.Operation.Stretches

/-!
# Patterns as template literals

In the body of a template literal a backslash makes the next character literal, a dollar sign with
an opening brace behind it begins a substitution, which reaches to the next closing brace, and a
backtick ends the literal.  A pattern is written with a backslash before each backtick of its fixed
text, and everything else stands as it is.  Placeholders and backticks are therefore read back
wherever they stand, but a backslash of the fixed text is not, and neither is a dollar sign with an
opening brace behind it, which is fixed text where the brace is not closed.

Results:

* `gather_fragments`: a pattern is determined by the parts that it is written in.
* `room_le_of_readLiteral`: what is read has room in what it is read from.
* `readLiteral_written_iff`: which parts are read back as they were written.
* `literal_read_back_iff`: which patterns are read back from their literals.
-/

namespace DataContract.UrlPattern

/-! ## Reading a literal -/

/-- A part of the body of a template literal. -/
inductive Fragment where
  /-- A character of its text. -/
  | char (c : Char)
  /-- A substitution. -/
  | name (name : List Char)
  deriving DecidableEq, Repr

/-- The parts of the body of a template literal.  There are none if the literal ends within it, or
does not end behind it.  Within a substitution `inside` is what has been read of it. -/
def readLiteral : (inside : Option (List Char)) → List Char → Option (List Fragment)
  | none, [] => some []
  | none, '\\' :: c :: rest => (readLiteral none rest).map (.char c :: ·)
  | none, '$' :: '{' :: rest => readLiteral (some []) rest
  | none, c :: rest =>
    if c = '\\' ∨ c = '\x60' then none else (readLiteral none rest).map (.char c :: ·)
  | some _, [] => none
  | some name, c :: rest =>
    if c = '}' then (readLiteral none rest).map (.name name :: ·)
    else readLiteral (some (name ++ [c])) rest

/-- Parts as pieces, with the characters between two substitutions as one piece. -/
def gather : List Fragment → List UrlPiece
  | [] => []
  | .name name :: rest => .placeholder (String.ofList name) :: gather rest
  | .char c :: rest =>
    match gather rest with
    | .fixed text :: more => .fixed (String.singleton c ++ text) :: more
    | more => .fixed (String.singleton c) :: more

/-- The pieces that the body of a template literal says. -/
def piecesOfLiteral? (body : String) : Option (List UrlPiece) :=
  (readLiteral none body.toList).map gather

/-- The parts of a piece. -/
def fragments : UrlPiece → List Fragment
  | .fixed text => text.toList.map .char
  | .placeholder name => [.name name.toList]

section Gathering

variable {parts : List Fragment} {text : List Char}

/-- No part is lost when parts are gathered. -/
theorem fragments_gather (parts : List Fragment) : (gather parts).flatMap fragments = parts := by
  induction parts with
  | nil => rfl
  | cons part parts ih =>
    cases part with
    | name name => simp [gather, fragments, ih]
    | char c =>
      rw [gather]
      split
      · next text more hgather =>
        rw [hgather] at ih
        simp [← ih, fragments]
      · simp [ih, fragments]

/-- Characters before a substitution, or before the end, are gathered into one piece. -/
theorem gather_chars (h : ∀ piece ∈ (gather parts).head?, ¬ IsFixed piece) :
    gather (text.map .char ++ parts) = fixedPieces text ++ gather parts := by
  induction text with
  | nil => rfl
  | cons c text ih =>
    rw [List.map_cons, List.cons_append, gather, ih]
    cases text with
    | nil =>
      cases hgather : gather parts with
      | nil => rfl
      | cons piece more =>
        rw [hgather] at h
        cases piece with
        | fixed other => exact absurd trivial (h _ rfl)
        | placeholder name => rfl
    | cons d text => simp [fixedPieces, String.ofList_cons]

end Gathering

/-! ## Writing and reading -/

/-- A part as it is written. -/
def Fragment.written : Fragment → List Char
  | .char c => escapeFixed c
  | .name text => '$' :: '{' :: (text ++ ['}'])

/-- The characters that a part takes at least, wherever it is read. -/
def Fragment.room : Fragment → ℕ
  | .char c => if c = '\\' ∨ c = '\x60' then 2 else 1
  | .name text => text.length + 3

/-- The characters that parts in a row take at least. -/
def roomOf : List Fragment → ℕ
  | [] => 0
  | part :: parts => part.room + roomOf parts

/-- The two parts do not begin a substitution where they stand side by side. -/
def Apart (a b : Fragment) : Prop := ¬ (a = .char '$' ∧ b = .char '{')

@[simp] theorem apart_name (name : List Char) (b : Fragment) : Apart (.name name) b :=
  fun h => nomatch h.1

@[simp] theorem apart_char (c d : Char) : Apart (.char c) (.char d) ↔ ¬ (c = '$' ∧ d = '{') := by
  simp [Apart]

/-- The characters that what is open takes at least. -/
def roomInside : Option (List Char) → ℕ
  | none => 0
  | some name => name.length + 2

section Reading

variable {c : Char} {parts : List Fragment} {name text rest : List Char}

theorem toList_literalPiece (piece : UrlPiece) :
    (literalPiece piece).toList = (fragments piece).flatMap Fragment.written := by
  cases piece with
  | fixed text => simp [literalPiece, fragments, Fragment.written, List.flatMap_map]
  | placeholder name => simp [literalPiece, fragments, Fragment.written]

/-- A literal is written part by part. -/
theorem toList_literal (url : UrlPattern) :
    url.literal.toList = (url.pieces.flatMap fragments).flatMap Fragment.written := by
  rw [literal, String.toList_join, List.flatMap_map, List.flatMap_assoc]
  exact List.flatMap_congr fun piece _ => toList_literalPiece piece

/-- Within a substitution everything up to the next closing brace is its name. -/
theorem readLiteral_inside (h : '}' ∉ text) : readLiteral (some name) (text ++ '}' :: rest) =
    (readLiteral none rest).map (.name (name ++ text) :: ·) := by
  induction text generalizing name with
  | nil => simp [readLiteral]
  | cons c text ih =>
    rw [List.mem_cons, not_or] at h
    rw [List.cons_append, readLiteral, if_neg (Ne.symm h.1), ih h.2, List.append_assoc,
      List.singleton_append]

/-- A character stands for itself if it is neither special nor the beginning of a substitution. -/
theorem readLiteral_cons (hslash : c ≠ '\\') (htick : c ≠ '\x60')
    (hdollar : ¬ (c = '$' ∧ rest.head? = some '{')) :
    readLiteral none (c :: rest) = (readLiteral none rest).map (.char c :: ·) := by
  rw [readLiteral, if_neg (by simp [hslash, htick])]
  · rintro d rest' rfl -
    exact hslash rfl
  · rintro rest' rfl rfl
    exact hdollar ⟨rfl, rfl⟩

theorem head?_written (part : Fragment) : part.written.head? = some '{' ↔ part = .char '{' := by
  cases part with
  | name text => simp [Fragment.written]
  | char c =>
    rw [Fragment.written, escapeFixed]
    split_ifs with h
    · simp [h]
    · simp

/-- What is written begins with an opening brace only if that is its first character. -/
theorem head?_flatMap_written (parts : List Fragment) :
    (parts.flatMap Fragment.written).head? = some '{' ↔ parts.head? = some (.char '{') := by
  cases parts with
  | nil => simp
  | cons part parts =>
    have hwritten : part.written ≠ [] := by
      cases part with
      | name text => simp [Fragment.written]
      | char c =>
        rw [Fragment.written, escapeFixed]
        split_ifs <;> simp
    rw [List.flatMap_cons, List.head?_append_of_ne_nil _ hwritten, head?_written, List.head?_cons,
      Option.some_inj]

/-- A character that is written is read back, unless it is a backslash or begins a substitution. -/
theorem readLiteral_char (hslash : c ≠ '\\')
    (hdollar : ¬ (c = '$' ∧ parts.head? = some (.char '{'))) :
    readLiteral none ((Fragment.char c :: parts).flatMap Fragment.written) =
      (readLiteral none (parts.flatMap Fragment.written)).map (.char c :: ·) := by
  rw [List.flatMap_cons, Fragment.written, escapeFixed]
  split_ifs with htick
  · rfl
  · rw [← head?_flatMap_written] at hdollar
    exact readLiteral_cons hslash htick hdollar

/-- A substitution that is written is read back. -/
theorem readLiteral_name (h : '}' ∉ name) :
    readLiteral none ((Fragment.name name :: parts).flatMap Fragment.written) =
      (readLiteral none (parts.flatMap Fragment.written)).map (.name name :: ·) := by
  have htext : (Fragment.name name :: parts).flatMap Fragment.written =
      '$' :: '{' :: (name ++ '}' :: parts.flatMap Fragment.written) := by
    simp [Fragment.written]
  rw [htext, readLiteral, readLiteral_inside h, List.nil_append]

/-- Within a substitution the next part that is read is this substitution. -/
theorem readLiteral_inside_ne : readLiteral (some name) text ≠ some (.char c :: parts) := by
  induction text generalizing name with
  | nil => simp [readLiteral]
  | cons d text ih =>
    rw [readLiteral]
    split_ifs
    · simp
    · exact ih

/-- One more part that is read takes its room. -/
theorem room_le_of_map {part : Fragment} {result : Option (List Fragment)} {m n : ℕ}
    (h : ∀ parts, result = some parts → roomOf parts ≤ m)
    (hpart : part.room + m ≤ n) :
    ∀ parts, result.map (part :: ·) = some parts → roomOf parts ≤ n := by
  intro parts hparts
  obtain ⟨more, hmore, rfl⟩ := Option.map_eq_some_iff.mp hparts
  exact (Nat.add_le_add_left (h more hmore) _).trans hpart

/-- What is read has room in what it is read from. -/
theorem room_le_of_readLiteral (inside : Option (List Char)) (text : List Char) :
    ∀ parts, readLiteral inside text = some parts →
      roomOf parts ≤ text.length + roomInside inside := by
  fun_induction readLiteral inside text with
  | case1 =>
    rintro parts ⟨⟩
    exact Nat.zero_le _
  | case2 c rest ih =>
    -- a character behind a backslash
    refine room_le_of_map ih ?_
    have hroom : (Fragment.char c).room ≤ 2 := by
      rw [Fragment.room]
      split_ifs <;> decide
    simp only [List.length_cons]
    omega
  | case3 rest ih =>
    intro parts hparts
    have hle := ih parts hparts
    simp only [roomInside, List.length_cons, List.length_nil] at hle ⊢
    omega
  | case4 => exact fun parts hparts => nomatch hparts
  | case5 c rest hpair hdollar hplain ih =>
    refine room_le_of_map ih ?_
    rw [Fragment.room, if_neg hplain, List.length_cons]
    omega
  | case6 => exact fun parts hparts => nomatch hparts
  | case7 name rest ih =>
    refine room_le_of_map ih ?_
    simp only [Fragment.room, roomInside, List.length_cons]
    omega
  | case8 name c rest hclose ih =>
    intro parts hparts
    have hle := ih parts hparts
    simp only [roomInside, List.length_append, List.length_cons, List.length_nil] at hle ⊢
    omega

/-- A part takes as many characters as it is written with, except for a backslash. -/
theorem room_eq (part : Fragment) :
    part.room = part.written.length + if part = .char '\\' then 1 else 0 := by
  cases part with
  | name text => simp [Fragment.room, Fragment.written]
  | char c =>
    by_cases hslash : c = '\\'
    · simp [Fragment.room, Fragment.written, escapeFixed, hslash]
    · by_cases htick : c = '\x60' <;>
        simp [Fragment.room, Fragment.written, escapeFixed, hslash, htick]

theorem roomOf_eq (parts : List Fragment) : roomOf parts =
    (parts.flatMap Fragment.written).length + parts.count (.char '\\') := by
  induction parts with
  | nil => rfl
  | cons part parts ih =>
    rw [roomOf, ih, room_eq, List.flatMap_cons, List.length_append,
      List.count_cons]
    simp only [beq_iff_eq]
    omega

/-- There is no backslash among parts that are read back as they were written. -/
theorem not_mem_of_readLiteral
    (h : readLiteral none (parts.flatMap Fragment.written) = some parts) :
    Fragment.char '\\' ∉ parts := by
  have hroom := room_le_of_readLiteral _ _ _ h
  rw [roomOf_eq, roomInside] at hroom
  exact List.count_eq_zero.mp (by omega)

/-- Parts without a backslash are read back if no dollar sign has an opening brace behind it. -/
theorem readLiteral_written_iff_of_not_mem (hnames : ∀ name, .name name ∈ parts → '}' ∉ name)
    (hslash : Fragment.char '\\' ∉ parts) :
    readLiteral none (parts.flatMap Fragment.written) = some parts ↔ parts.IsChain Apart := by
  induction parts with
  | nil => simp [readLiteral]
  | cons part parts ih =>
    rw [List.mem_cons, not_or] at hslash
    have hrest := ih (fun name hname => hnames name (List.mem_cons_of_mem _ hname)) hslash.2
    rw [List.isChain_cons, ← hrest]
    cases part with
    | name name =>
      rw [readLiteral_name (hnames name List.mem_cons_self)]
      simp
    | char c =>
      by_cases hdollar : c = '$' ∧ parts.head? = some (.char '{')
      · -- a substitution begins here
        obtain ⟨rfl, hhead⟩ := hdollar
        obtain ⟨more, rfl⟩ := List.head?_eq_some_iff.mp hhead
        refine iff_of_false readLiteral_inside_ne fun hchain => ?_
        exact hchain.1 _ rfl ⟨rfl, rfl⟩
      · rw [readLiteral_char (fun hc => hslash.1 (hc ▸ rfl)) hdollar]
        have hhead : ∀ part ∈ parts.head?, Apart (.char c) part := by
          rintro part hpart ⟨hc, rfl⟩
          exact hdollar ⟨Fragment.char.inj hc, hpart⟩
        simp only [Option.map_eq_some_iff, List.cons.injEq, true_and, exists_eq_right]
        exact (and_iff_right hhead).symm

/-- Parts are read back as they were written if and only if there is no backslash, and no dollar
sign has an opening brace behind it. -/
theorem readLiteral_written_iff (hnames : ∀ name, .name name ∈ parts → '}' ∉ name) :
    readLiteral none (parts.flatMap Fragment.written) = some parts ↔
      Fragment.char '\\' ∉ parts ∧ parts.IsChain Apart := by
  constructor
  · intro h
    have hslash := not_mem_of_readLiteral h
    exact ⟨hslash, (readLiteral_written_iff_of_not_mem hnames hslash).mp h⟩
  · rintro ⟨hslash, hchain⟩
    exact (readLiteral_written_iff_of_not_mem hnames hslash).mpr hchain

end Reading

/-! ## Patterns -/

section Patterns

variable {pieces : List UrlPiece}

/-- Pieces are gathered from their parts again, if none is an empty fixed text and no two fixed
texts stand side by side. -/
theorem gather_fragments (hne : ∀ text, .fixed text ∈ pieces → text ≠ "")
    (hchain : pieces.IsChain fun a b => ¬ (IsFixed a ∧ IsFixed b)) :
    gather (pieces.flatMap fragments) = pieces := by
  induction pieces with
  | nil => rfl
  | cons piece pieces ih =>
    rw [List.isChain_cons] at hchain
    have hrest := ih (fun text htext => hne text (List.mem_cons_of_mem _ htext)) hchain.2
    cases piece with
    | placeholder name => simp [fragments, gather, hrest]
    | fixed text =>
      have hhead : ∀ piece ∈ (gather (pieces.flatMap fragments)).head?, ¬ IsFixed piece := by
        rw [hrest]
        exact fun piece hpiece hfixed => hchain.1 piece hpiece ⟨trivial, hfixed⟩
      have htext : text.toList ≠ [] := by simpa using hne text List.mem_cons_self
      rw [List.flatMap_cons, fragments, gather_chars hhead, hrest, fixedPieces,
        if_neg (by simpa using htext), String.ofList_toList, List.singleton_append]

theorem char_mem_flatMap_fragments {c : Char} : Fragment.char c ∈ pieces.flatMap fragments ↔
    ∃ text, .fixed text ∈ pieces ∧ c ∈ text.toList := by
  rw [List.mem_flatMap]
  constructor
  · rintro ⟨piece, hpiece, hmem⟩
    cases piece with
    | fixed text => exact ⟨text, hpiece, by simpa [fragments] using hmem⟩
    | placeholder name => simp [fragments] at hmem
  · rintro ⟨text, htext, hmem⟩
    exact ⟨_, htext, by simpa [fragments] using hmem⟩

theorem name_mem_flatMap_fragments {name : List Char}
    (h : Fragment.name name ∈ pieces.flatMap fragments) :
    .placeholder (String.ofList name) ∈ pieces := by
  obtain ⟨piece, hpiece, hmem⟩ := List.mem_flatMap.mp h
  cases piece with
  | fixed text => simp [fragments] at hmem
  | placeholder other =>
    obtain rfl : name = other.toList := by simpa [fragments] using hmem
    rwa [String.ofList_toList]

/-- A dollar sign has an opening brace behind it only within a fixed text. -/
theorem isChain_fragments (hchain : pieces.IsChain fun a b => ¬ (IsFixed a ∧ IsFixed b)) :
    (pieces.flatMap fragments).IsChain Apart ↔
      ∀ text, .fixed text ∈ pieces → text.toList.IsChain fun c d => ¬ (c = '$' ∧ d = '{') := by
  induction pieces with
  | nil => simp
  | cons piece pieces ih =>
    rw [List.isChain_cons] at hchain
    rw [List.flatMap_cons, List.isChain_append, ih hchain.2]
    cases piece with
    | placeholder name => simp [fragments]
    | fixed text =>
      -- behind a fixed text a substitution begins, or nothing stands there
      have hhead : ∀ part ∈ (pieces.flatMap fragments).head?, part ≠ .char '{' := by
        cases pieces with
        | nil => simp
        | cons next pieces =>
          cases next with
          | fixed other => exact absurd ⟨trivial, trivial⟩ (hchain.1 _ rfl)
          | placeholder name => simp [fragments]
      have hjoin : ∀ a ∈ (fragments (.fixed text)).getLast?,
          ∀ b ∈ (pieces.flatMap fragments).head?, Apart a b := fun a _ b hb h => hhead b hb h.2
      have htext : (fragments (.fixed text)).IsChain Apart ↔
          text.toList.IsChain fun c d => ¬ (c = '$' ∧ d = '{') := by
        simp [fragments, List.isChain_map]
      rw [htext, and_iff_left hjoin]
      simp

/-- What is read from the literal of a route are the pieces of the route, and there is no backtick
before its end, if and only if no fixed text has a backslash, or a dollar sign with an opening brace
behind it. -/
theorem literal_read_back_iff (route : String) :
    piecesOfLiteral? (parse route).literal = some (parse route).pieces ↔
      ∀ text, .fixed text ∈ (parse route).pieces →
        '\\' ∉ text.toList ∧ text.toList.IsChain fun c d => ¬ (c = '$' ∧ d = '{') := by
  obtain ⟨-, hne, hchain, hnames, -⟩ := parse_lossless route
  generalize parse route = url at *
  have hgather := gather_fragments hne hchain
  have hread : piecesOfLiteral? url.literal = some url.pieces ↔
      readLiteral none ((url.pieces.flatMap fragments).flatMap Fragment.written) =
        some (url.pieces.flatMap fragments) := by
    rw [piecesOfLiteral?, toList_literal, Option.map_eq_some_iff]
    constructor
    · rintro ⟨parts, hparts, hpieces⟩
      rw [hparts, ← hpieces, fragments_gather]
    · exact fun hparts => ⟨_, hparts, hgather⟩
  have hunclosed : ∀ name, .name name ∈ url.pieces.flatMap fragments → '}' ∉ name := by
    intro name hname
    simpa using hnames _ (name_mem_flatMap_fragments hname)
  rw [hread, readLiteral_written_iff hunclosed, isChain_fragments hchain,
    char_mem_flatMap_fragments]
  constructor
  · rintro ⟨hslash, hdollar⟩ text htext
    exact ⟨fun hmem => hslash ⟨text, htext, hmem⟩, hdollar text htext⟩
  · intro h
    exact ⟨fun ⟨text, htext, hmem⟩ => (h text htext).1 hmem, fun text htext => (h text htext).2⟩

/-- A backslash in a fixed text is lost with the literal, and a brace without a closing one that
stands behind a dollar sign leaves the literal without an end. -/
theorem listing_lost : piecesOfLiteral? (parse "files\\list").literal = some [.fixed "fileslist"] ∧
    (parse "files\\list").pieces = [.fixed "files\\list"] ∧
    piecesOfLiteral? (parse "price/$\x7bid").literal = none := by
  decide +kernel

end Patterns

end DataContract.UrlPattern
