import DataContract.Operation.Route
import DataContract.Proofs.Operation.Stretches

/-!
# Bare names in placeholders

The route is rewritten with bare names in its placeholders before the URL is read from it.  To
rewrite it, opening and closing braces are looked for in turn, and the URL is read character by
character; yet both find the same placeholders, however the braces stand.

Results:

* `normalizeText_of_divided`: stretch by stretch the placeholder gets its bare name.
* `parse_normalize`: what is read from the rewritten route, and which names are optional.
-/

namespace DataContract

/-- The piece with another name for its placeholder. -/
def UrlPiece.rename (f : String → String) : UrlPiece → UrlPiece
  | .fixed text => .fixed text
  | .placeholder name => .placeholder (f name)

namespace Route

open UrlPattern (Stretch Remainder Divided stretchesText stretchesPieces)

/-! ## Bare names -/

/-- The bare name of a placeholder: what stands before the first colon, without asterisks at its
front and without one question mark at its end. -/
def bareName (inner : String) : String :=
  let name := (Text.beforeFirst ':' inner.toList).dropWhile (· == '*')
  String.ofList (if name.getLast? = some '?' then name.dropLast else name)

/-- A question mark ends the text of the placeholder, or what stands before its first colon. -/
def MarkedOptional (inner : String) : Prop :=
  inner.toList.getLast? = some '?' ∨ (Text.beforeFirst ':' inner.toList).getLast? = some '?'

instance : DecidablePred MarkedOptional := fun inner =>
  inferInstanceAs (Decidable (inner.toList.getLast? = some '?' ∨
    (Text.beforeFirst ':' inner.toList).getLast? = some '?'))

theorem cleanName_eq (inner : String) :
    cleanName inner = (bareName inner, decide (MarkedOptional inner)) := by
  have hpart : ((Text.beforeFirst ':' inner.toList).dropWhile (· == '*')).getLast? = some '?' ↔
      (Text.beforeFirst ':' inner.toList).getLast? = some '?' :=
    Text.getLast?_dropWhile _ (by decide) _
  rw [cleanName, bareName]
  split_ifs with hmark
  · have hoptional : MarkedOptional inner := Or.inr (hpart.mp hmark)
    simp [hoptional]
  · have hoptional : MarkedOptional inner ↔ inner.toList.getLast? = some '?' :=
      or_iff_left (mt hpart.mpr hmark)
    simp [hoptional, beq_eq_decide]

/-- A bare name is a part of the text of its placeholder. -/
theorem bareName_sublist (inner : String) : (bareName inner).toList.Sublist inner.toList := by
  have hname : ((Text.beforeFirst ':' inner.toList).dropWhile (· == '*')).Sublist inner.toList :=
    (List.dropWhile_sublist _).trans (List.takeWhile_sublist _)
  rw [bareName, String.toList_ofList]
  split_ifs
  · exact (List.dropLast_sublist _).trans hname
  · exact hname

/-! ## Rewriting stretches -/

/-- The stretch with the bare name of its placeholder. -/
def bareStretch (s : Stretch) : Stretch where
  before := s.before
  name := (bareName (String.ofList s.name)).toList
  unopened := s.unopened
  unclosed hmem := s.unclosed (by simpa using (bareName_sublist _).subset hmem)

theorem bareStretch_name (s : Stretch) :
    (bareStretch s).name = (bareName (String.ofList s.name)).toList := by rw [bareStretch]

/-- The bare names of the optional ones among some placeholders. -/
def markedNames (names : List String) : List String :=
  (names.filter fun name => decide (MarkedOptional name)).map bareName

theorem markedNames_append (names more : List String) :
    markedNames (names ++ more) = markedNames names ++ markedNames more := by
  rw [markedNames, List.filter_append, List.map_append, markedNames, markedNames]

theorem normalizeText_remainder (remainder : Remainder) :
    normalizeText remainder.text = (remainder.text, []) := by
  rw [normalizeText]
  split
  · rfl
  · next before behind hopen =>
    have htext := Text.cut?_eq_some hopen
    rw [List.append_assoc, List.singleton_append] at htext
    split
    · rfl
    · next inner rest hclose =>
      refine absurd ?_ (remainder.unclosed _ _ htext)
      rw [Text.cut?_eq_some hclose]
      simp

theorem normalizeText_stretch (s : Stretch) (rest : List Char) :
    normalizeText (s.text ++ rest) =
      ((bareStretch s).text ++ (normalizeText rest).1,
        markedNames [String.ofList s.name] ++ (normalizeText rest).2) := by
  have htext : s.text ++ rest = s.before ++ '{' :: (s.name ++ '}' :: rest) := by
    simp [Stretch.text]
  rw [htext, normalizeText]
  split
  · next hopen =>
    rw [Text.cut?_first s.unopened] at hopen
    cases hopen
  · next before behind hopen =>
    rw [Text.cut?_first s.unopened] at hopen
    cases hopen
    split
    · next hclose =>
      rw [Text.cut?_first s.unclosed] at hclose
      cases hclose
    · next inner rest' hclose =>
      rw [Text.cut?_first s.unclosed] at hclose
      cases hclose
      by_cases hmark : MarkedOptional (String.ofList s.name) <;>
        simp [cleanName_eq, markedNames, hmark, bareStretch, Stretch.text]

/-- Each stretch gets the bare name of its placeholder, and all else stays. -/
theorem normalizeText_of_divided {text : List Char} {stretches : List Stretch}
    {remainder : Remainder} (h : Divided text stretches remainder) :
    Divided (normalizeText text).1 (stretches.map bareStretch) remainder ∧
      (normalizeText text).2 = markedNames (stretches.map fun s => String.ofList s.name) := by
  rw [h]
  clear h
  induction stretches with
  | nil =>
    rw [UrlPattern.stretchesText_nil, List.nil_append, normalizeText_remainder]
    exact ⟨rfl, rfl⟩
  | cons s stretches ih =>
    rw [UrlPattern.stretchesText_cons, List.append_assoc, normalizeText_stretch, List.map_cons]
    refine ⟨ih.1.cons (bareStretch s), ?_⟩
    rw [ih.2, List.map_cons, ← markedNames_append, List.singleton_append]

/-- The pieces of stretches are renamed with them. -/
theorem pieces_bareStretch (stretches : List Stretch) (text : List Char) :
    stretchesPieces (stretches.map bareStretch) ++ UrlPattern.fixedPieces text =
      (stretchesPieces stretches ++ UrlPattern.fixedPieces text).map (.rename bareName) := by
  have hfixed : ∀ text, (UrlPattern.fixedPieces text).map (.rename bareName) =
      UrlPattern.fixedPieces text := by
    intro text
    cases text <;> rfl
  rw [List.map_append, hfixed, stretchesPieces, stretchesPieces, List.flatMap_map, List.map_flatMap]
  congr 2
  funext s
  rw [Stretch.pieces, Stretch.pieces, List.map_append, hfixed]
  simp [bareStretch, UrlPiece.rename]

/-- The pieces of the rewritten route are those of the route with bare names in their placeholders.
The optional names are the bare names of the placeholders that are marked, in their order. -/
theorem parse_normalize (route : String) :
    (UrlPattern.parse (normalize route).1).pieces =
        (UrlPattern.parse route).pieces.map (.rename bareName) ∧
      (normalize route).2 =
        ((UrlPattern.parse route).placeholders.filter (MarkedOptional ·)).map bareName := by
  obtain ⟨stretches, remainder, hdivided⟩ := UrlPattern.exists_divided route.toList
  obtain ⟨hnormalized, hnames⟩ := normalizeText_of_divided hdivided
  have hroute : (normalize route).1.toList = (normalizeText route.toList).1 := String.toList_ofList
  rw [← hroute] at hnormalized
  constructor
  · rw [UrlPattern.pieces_of_divided hnormalized, UrlPattern.pieces_of_divided hdivided,
      pieces_bareStretch]
  · rw [UrlPattern.placeholders_of_divided hdivided]
    exact hnames

end Route

end DataContract
