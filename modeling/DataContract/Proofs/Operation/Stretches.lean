import DataContract.Operation.UrlPattern
import DataContract.Proofs.Text.Search
import Mathlib.Data.List.Chain

/-!
# The stretches of a route

Every text, however its braces stand, is a row of stretches and a remainder.  A stretch is fixed
text and the placeholder behind it, and in the remainder no opening brace is closed.  What the
reading of a route holds is known after each stretch, and so are the pieces that it ends with.

Results:

* `exists_divided`: every text can be divided in this way.
* `pieces_of_divided`: the pieces of a route are those of its stretches and its remainder.
* `parse_lossless`: the pieces are the whole route, in as few parts as possible.
-/

namespace DataContract.UrlPattern

/-! ## Stretches -/

/-- Fixed text and the placeholder behind it. -/
structure Stretch where
  before : List Char
  name : List Char
  unopened : '{' ∉ before
  unclosed : '}' ∉ name

/-- What stands behind the last placeholder. -/
structure Remainder where
  text : List Char
  unclosed : ∀ before behind, text = before ++ '{' :: behind → '}' ∉ behind

/-- The text of a stretch. -/
def Stretch.text (s : Stretch) : List Char := s.before ++ '{' :: (s.name ++ ['}'])

/-- The pieces of a stretch. -/
def Stretch.pieces (s : Stretch) : List UrlPiece :=
  fixedPieces s.before ++ [.placeholder (String.ofList s.name)]

/-- The text of stretches in a row. -/
def stretchesText (stretches : List Stretch) : List Char := stretches.flatMap Stretch.text

/-- The pieces of stretches in a row. -/
def stretchesPieces (stretches : List Stretch) : List UrlPiece := stretches.flatMap Stretch.pieces

/-- The text consists of the stretches and the remainder. -/
def Divided (text : List Char) (stretches : List Stretch) (remainder : Remainder) : Prop :=
  text = stretchesText stretches ++ remainder.text

/-- A text without an opening brace. -/
def Remainder.ofUnopened (text : List Char) (h : '{' ∉ text) : Remainder where
  text
  unclosed := by
    rintro before behind rfl
    exact absurd (by simp) h

/-- A text of which the first opening brace is not closed. -/
def Remainder.ofOpened (before behind : List Char) (hbefore : '{' ∉ before)
    (hbehind : '}' ∉ behind) : Remainder where
  text := before ++ '{' :: behind
  unclosed := by
    intro before' behind' hsplit hclosed
    -- a later opening brace stands behind the first one
    obtain ⟨between, -, hlater⟩ := Text.exists_of_append_eq hbefore hsplit
    have hmem : '}' ∈ '{' :: behind := by
      rw [hlater]
      simp [hclosed]
    exact hbehind (by simpa using hmem)

section Stretches

variable {stretches : List Stretch} {remainder : Remainder} {text : List Char}

@[simp] theorem stretchesText_nil : stretchesText [] = [] := rfl

@[simp] theorem stretchesText_cons (s : Stretch) :
    stretchesText (s :: stretches) = s.text ++ stretchesText stretches := rfl

@[simp] theorem stretchesPieces_nil : stretchesPieces [] = [] := rfl

@[simp] theorem stretchesPieces_cons (s : Stretch) :
    stretchesPieces (s :: stretches) = s.pieces ++ stretchesPieces stretches := rfl

theorem Divided.cons (h : Divided text stretches remainder) (s : Stretch) :
    Divided (s.text ++ text) (s :: stretches) remainder := by
  rw [Divided, stretchesText_cons, List.append_assoc, ← h]

/-- A remainder has no opening brace, or its first one is not closed. -/
theorem Remainder.unopened_or_opened (remainder : Remainder) : '{' ∉ remainder.text ∨
    ∃ before behind, '{' ∉ before ∧ '}' ∉ behind ∧ remainder.text = before ++ '{' :: behind := by
  by_cases hopen : '{' ∈ remainder.text
  · obtain ⟨before, behind, htext, hbefore⟩ := List.eq_append_cons_of_mem hopen
    exact Or.inr ⟨before, behind, hbefore, remainder.unclosed before behind htext, htext⟩
  · exact Or.inl hopen

/-- Every text consists of stretches and a remainder. -/
theorem exists_divided (text : List Char) :
    ∃ stretches remainder, Divided text stretches remainder := by
  induction hlength : text.length using Nat.strongRecOn generalizing text with
  | ind length ih =>
    by_cases hopen : '{' ∈ text
    · obtain ⟨before, behind, rfl, hbefore⟩ := List.eq_append_cons_of_mem hopen
      by_cases hclose : '}' ∈ behind
      · obtain ⟨name, rest, rfl, hname⟩ := List.eq_append_cons_of_mem hclose
        have hshorter : rest.length < length := by
          rw [← hlength]
          simp only [List.length_append, List.length_cons]
          omega
        obtain ⟨stretches, remainder, hrest⟩ := ih _ hshorter rest rfl
        refine ⟨⟨before, name, hbefore, hname⟩ :: stretches, remainder, ?_⟩
        simpa [Stretch.text] using hrest.cons ⟨before, name, hbefore, hname⟩
      · exact ⟨[], .ofOpened before behind hbefore hclose, rfl⟩
    · exact ⟨[], .ofUnopened text hopen, rfl⟩

end Stretches

/-! ## Reading stretches -/

section Reading

variable {pieces : List UrlPiece} {text part name : List Char} {stretches : List Stretch}
  {remainder : Remainder}

/-- Outside placeholders everything up to the next opening brace is fixed text. -/
theorem read_fixed (h : '{' ∉ part) :
    part.foldl Reading.step ⟨pieces, text, none⟩ = ⟨pieces, text ++ part, none⟩ := by
  induction part generalizing text with
  | nil => rw [List.append_nil, List.foldl_nil]
  | cons c part ih =>
    rw [List.mem_cons, not_or] at h
    have hstep : Reading.step ⟨pieces, text, none⟩ c = ⟨pieces, text ++ [c], none⟩ :=
      if_neg (Ne.symm h.1)
    rw [List.foldl_cons, hstep, ih h.2, List.append_assoc, List.singleton_append]

/-- Within a placeholder everything up to the next closing brace is its name. -/
theorem read_inside (h : '}' ∉ part) :
    part.foldl Reading.step ⟨pieces, text, some name⟩ = ⟨pieces, text, some (name ++ part)⟩ := by
  induction part generalizing name with
  | nil => rw [List.append_nil, List.foldl_nil]
  | cons c part ih =>
    rw [List.mem_cons, not_or] at h
    have hstep : Reading.step ⟨pieces, text, some name⟩ c = ⟨pieces, text, some (name ++ [c])⟩ :=
      if_neg (Ne.symm h.1)
    rw [List.foldl_cons, hstep, ih h.2, List.append_assoc, List.singleton_append]

/-- An opening brace ends the fixed text. -/
theorem read_open :
    Reading.step ⟨pieces, text, none⟩ '{' = ⟨pieces ++ fixedPieces text, [], some []⟩ := rfl

theorem finish_fixed : Reading.finish ⟨pieces, text, none⟩ = pieces ++ fixedPieces text := rfl

/-- A placeholder that is not closed is fixed text. -/
theorem finish_inside :
    Reading.finish ⟨pieces, [], some name⟩ = lengthen pieces ('{' :: name) := rfl

/-- A placeholder that is closed is a piece. -/
theorem read_placeholder (h : '}' ∉ name) :
    ('{' :: (name ++ ['}'])).foldl Reading.step ⟨pieces, text, none⟩ =
      ⟨pieces ++ fixedPieces text ++ [.placeholder (String.ofList name)], [], none⟩ := by
  rw [List.foldl_cons, read_open, List.foldl_append, read_inside h]
  rfl

/-- Behind stretches nothing is open, and the pieces are theirs. -/
theorem read_stretches (stretches : List Stretch) :
    (stretchesText stretches).foldl Reading.step ⟨pieces, [], none⟩ =
      ⟨pieces ++ stretchesPieces stretches, [], none⟩ := by
  induction stretches generalizing pieces with
  | nil => simp
  | cons s stretches ih =>
    rw [stretchesText_cons, List.foldl_append, Stretch.text, List.foldl_append,
      read_fixed s.unopened, read_placeholder s.unclosed, ih]
    simp [Stretch.pieces]

/-- Stretches end with a placeholder. -/
theorem getLast?_stretchesPieces :
    ∀ piece ∈ (stretchesPieces stretches).getLast?, ∃ name, piece = .placeholder name := by
  intro piece hpiece
  rcases List.eq_nil_or_concat stretches with rfl | ⟨front, s, rfl⟩
  · cases hpiece
  · rw [stretchesPieces, List.concat_eq_append, List.flatMap_append, List.flatMap_singleton,
      Stretch.pieces, ← List.append_assoc, List.getLast?_concat] at hpiece
    cases hpiece
    exact ⟨_, rfl⟩

/-- Behind stretches fixed text is taken up again where it was left. -/
theorem lengthen_stretches :
    lengthen (stretchesPieces stretches ++ fixedPieces text) part =
      stretchesPieces stretches ++ fixedPieces (text ++ part) := by
  cases text with
  | nil =>
    rw [fixedPieces, if_pos List.isEmpty_nil, List.append_nil, List.nil_append, lengthen]
    split
    · next previous hlast =>
      obtain ⟨name, hname⟩ := getLast?_stretchesPieces _ hlast
      cases hname
    · rfl
  | cons c text =>
    simp [fixedPieces, lengthen, String.append_assoc]

/-- The pieces of a route are those of its stretches and the text of its remainder. -/
theorem pieces_of_divided {route : String} (h : Divided route.toList stretches remainder) :
    (parse route).pieces = stretchesPieces stretches ++ fixedPieces remainder.text := by
  have hread : (parse route).pieces =
      (remainder.text.foldl Reading.step ⟨stretchesPieces stretches, [], none⟩).finish := by
    rw [parse, h, List.foldl_append, read_stretches, List.nil_append]
  rcases remainder.unopened_or_opened with hopen | ⟨before, behind, hbefore, hbehind, htext⟩
  · rw [hread, read_fixed hopen, List.nil_append, finish_fixed]
  · rw [hread, htext, List.foldl_append, read_fixed hbefore, List.nil_append, List.foldl_cons,
      read_open, read_inside hbehind, List.nil_append, finish_inside, lengthen_stretches]

end Reading

/-! ## What the pieces are -/

section Pieces

variable {stretches : List Stretch} {remainder : Remainder} {text : List Char}

/-- The text of pieces in a row. -/
def piecesText (pieces : List UrlPiece) : List Char :=
  pieces.flatMap fun piece => (renderPiece piece).toList

theorem toList_render (url : UrlPattern) : url.render.toList = piecesText url.pieces := by
  rw [render, String.toList_join, List.flatMap_map, piecesText]

@[simp] theorem piecesText_fixedPieces : piecesText (fixedPieces text) = text := by
  cases text with
  | nil => rfl
  | cons c text => simp [fixedPieces, piecesText, renderPiece]

theorem piecesText_stretch (s : Stretch) : piecesText s.pieces = s.text := by
  rw [Stretch.pieces, piecesText, List.flatMap_append, ← piecesText, piecesText_fixedPieces]
  simp [renderPiece, Stretch.text]

theorem piecesText_stretches :
    piecesText (stretchesPieces stretches) = stretchesText stretches := by
  rw [piecesText, stretchesPieces, List.flatMap_assoc]
  exact List.flatMap_congr fun s _ => piecesText_stretch s

/-- A piece of fixed text. -/
def IsFixed : UrlPiece → Prop
  | .fixed _ => True
  | .placeholder _ => False

theorem mem_fixedPieces {piece : UrlPiece} :
    piece ∈ fixedPieces text ↔ text ≠ [] ∧ piece = .fixed (String.ofList text) := by
  cases text <;> simp [fixedPieces]

/-- Each piece is the fixed text or the placeholder of a stretch, or the text of the remainder. -/
theorem mem_pieces {piece : UrlPiece} :
    piece ∈ stretchesPieces stretches ++ fixedPieces text ↔
      (∃ s ∈ stretches, piece ∈ fixedPieces s.before ∨
        piece = .placeholder (String.ofList s.name)) ∨ piece ∈ fixedPieces text := by
  simp [stretchesPieces, Stretch.pieces]

theorem ne_empty_of_mem_fixedPieces {fixed : String} (h : .fixed fixed ∈ fixedPieces text) :
    fixed ≠ "" := by
  obtain ⟨hne, heq⟩ := mem_fixedPieces.mp h
  cases heq
  simpa using hne

theorem isChain_fixedPieces {r : UrlPiece → UrlPiece → Prop} : (fixedPieces text).IsChain r := by
  cases text <;> simp [fixedPieces]

/-- Behind each fixed text of a stretch stands its placeholder. -/
theorem isChain_stretches : (stretchesPieces stretches ++ fixedPieces text).IsChain
    fun a b => ¬ (IsFixed a ∧ IsFixed b) := by
  induction stretches with
  | nil => exact isChain_fixedPieces
  | cons s stretches ih =>
    rw [stretchesPieces_cons, List.append_assoc, Stretch.pieces, List.append_assoc]
    refine List.isChain_append.mpr ⟨isChain_fixedPieces, ?_, ?_⟩
    · refine List.isChain_cons.mpr ⟨fun b _ h => h.1, ih⟩
    · rintro a - b hb ⟨-, hfixed⟩
      cases hb
      exact hfixed

/-- The placeholders of a route are those of its stretches. -/
theorem placeholders_of_divided {route : String} (h : Divided route.toList stretches remainder) :
    (parse route).placeholders = stretches.map fun s => String.ofList s.name := by
  have hfixed : ∀ text, (fixedPieces text).filterMap placeholderName? = [] := by
    intro text
    cases text <;> rfl
  rw [placeholders, pieces_of_divided h, List.filterMap_append, hfixed, List.append_nil]
  clear h
  induction stretches with
  | nil => rfl
  | cons s stretches ih =>
    rw [stretchesPieces_cons, List.filterMap_append, ih, Stretch.pieces, List.filterMap_append,
      hfixed]
    rfl

/-- The pieces are the route, and they are as few as they can be: none is an empty fixed text, and
no two fixed texts stand side by side.  No placeholder's name has a closing brace.  What is read
from their text are the same pieces again. -/
theorem parse_lossless (route : String) :
    (parse route).render = route ∧
      (∀ text, .fixed text ∈ (parse route).pieces → text ≠ "") ∧
      ((parse route).pieces.IsChain fun a b => ¬ (IsFixed a ∧ IsFixed b)) ∧
      (∀ name, .placeholder name ∈ (parse route).pieces → '}' ∉ name.toList) ∧
      parse (parse route).render = parse route := by
  obtain ⟨stretches, remainder, hdivided⟩ := exists_divided route.toList
  have hpieces := pieces_of_divided hdivided
  have hrender : (parse route).render = route := by
    rw [← String.toList_inj, toList_render, hpieces, piecesText, List.flatMap_append,
      ← piecesText, ← piecesText, piecesText_stretches, piecesText_fixedPieces, ← hdivided]
  refine ⟨hrender, ?_, ?_, ?_, by rw [hrender]⟩
  · intro text htext
    rw [hpieces, mem_pieces] at htext
    rcases htext with ⟨s, -, hs | hs⟩ | hrest
    · exact ne_empty_of_mem_fixedPieces hs
    · cases hs
    · exact ne_empty_of_mem_fixedPieces hrest
  · rw [hpieces]
    exact isChain_stretches
  · intro name hname
    rw [hpieces, mem_pieces, mem_fixedPieces] at hname
    rcases hname with ⟨s, -, hs | hs⟩ | hrest
    · cases (mem_fixedPieces.mp hs).2
    · cases hs
      simpa using s.unclosed
    · cases hrest.2

end Pieces

end DataContract.UrlPattern
