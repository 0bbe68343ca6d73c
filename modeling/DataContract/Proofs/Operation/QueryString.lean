import DataContract.Proofs.Operation.Normalization
import DataContract.Proofs.Operation.OptionalParameters

/-!
# Where the query string begins

The query string of a route begins with the first question mark outside its placeholders.  It is
looked for by counting the braces that are open, while a placeholder ends with its first closing
brace and one that is never closed is fixed text.  So a question mark that is found stands outside
the placeholders, but the first one there is missed when some brace before it is still open to the
count, and then it gets into the URL.

Results:

* `UrlPattern.marks_eq_of_divided`: which characters of a route stand outside its placeholders.
* `Route.queryPosition?_eq_iff`: when the first question mark there is found.
* `Route.mem_marks_strip`: when a question mark is left by cutting the query string off.
* `question_left_iff`: when one is left in the URL of an operation.
-/

namespace DataContract

namespace UrlPattern

/-! ## Characters outside placeholders -/

/-- The characters of a piece in a route, each with whether it is fixed text. -/
def pieceMarks : UrlPiece → List (Char × Bool)
  | .fixed text => text.toList.map (·, true)
  | .placeholder name => ('{' :: (name.toList ++ ['}'])).map (·, false)

/-- The characters of a route, each with whether it stands outside the placeholders. -/
def marks (route : String) : List (Char × Bool) := (parse route).pieces.flatMap pieceMarks

/-- The position of the first question mark outside the placeholders. -/
def question? (route : String) : Option ℕ := (marks route).findIdx? (· == ('?', true))

/-- The characters of a stretch, each with whether it stands before the placeholder. -/
def Stretch.marks (s : Stretch) : List (Char × Bool) :=
  s.before.map (·, true) ++ ('{' :: (s.name ++ ['}'])).map (·, false)

/-- The characters of stretches in a row, each with whether it stands outside their placeholders. -/
def stretchesMarks (stretches : List Stretch) : List (Char × Bool) :=
  stretches.flatMap Stretch.marks

section Marks

variable {route : String} {stretches : List Stretch} {remainder : Remainder} {text : List Char}

theorem stretchesMarks_cons (s : Stretch) (stretches : List Stretch) :
    stretchesMarks (s :: stretches) = s.marks ++ stretchesMarks stretches := rfl

theorem flatMap_fixedPieces (text : List Char) :
    (fixedPieces text).flatMap pieceMarks = text.map (·, true) := by
  cases text <;> simp [fixedPieces, pieceMarks]

/-- What stands outside the placeholders is what stands before them in the stretches, and the
remainder. -/
theorem marks_eq_of_divided (h : Divided route.toList stretches remainder) :
    marks route = stretchesMarks stretches ++ remainder.text.map (·, true) := by
  rw [marks, pieces_of_divided h, List.flatMap_append, flatMap_fixedPieces, stretchesPieces,
    List.flatMap_assoc, stretchesMarks]
  congr 2
  funext s
  rw [Stretch.pieces, List.flatMap_append, flatMap_fixedPieces]
  simp [pieceMarks, Stretch.marks]

theorem map_fst_marked {b : Bool} (text : List Char) : (text.map (·, b)).map Prod.fst = text := by
  simp [Function.comp_def]

/-- The marked characters are those of the route. -/
theorem map_fst_marks (route : String) : (marks route).map Prod.fst = route.toList := by
  obtain ⟨stretches, remainder, hdivided⟩ := exists_divided route.toList
  rw [marks_eq_of_divided hdivided, List.map_append, map_fst_marked, hdivided]
  congr 1
  rw [stretchesMarks, List.map_flatMap, stretchesText]
  congr 1
  funext s
  rw [Stretch.marks, List.map_append, map_fst_marked, map_fst_marked, Stretch.text]

/-- A character is marked as fixed text when it is in a piece of fixed text. -/
theorem mem_marks {c : Char} : (c, true) ∈ marks route ↔
    ∃ text, .fixed text ∈ (parse route).pieces ∧ c ∈ text.toList := by
  rw [marks, List.mem_flatMap]
  constructor
  · rintro ⟨piece, hpiece, hc⟩
    cases piece with
    | fixed text => exact ⟨text, hpiece, by simpa [pieceMarks] using hc⟩
    | placeholder name => simp [pieceMarks] at hc
  · rintro ⟨text, htext, hc⟩
    exact ⟨.fixed text, htext, by simpa [pieceMarks] using hc⟩

/-- The beginning of a remainder. -/
def Remainder.take (remainder : Remainder) (i : ℕ) : Remainder where
  text := remainder.text.take i
  unclosed := by
    intro before behind htext hclosed
    have hwhole : remainder.text = before ++ '{' :: (behind ++ remainder.text.drop i) := by
      rw [← List.cons_append, ← List.append_assoc, ← htext, List.take_append_drop]
    exact remainder.unclosed _ _ hwhole (List.mem_append_left _ hclosed)

/-- What stands before a character outside the placeholders consists of whole stretches and a
remainder, and its characters stand outside of placeholders as before. -/
theorem exists_divided_take : ∀ {stretches : List Stretch} {i : ℕ} {c : Char},
    (stretchesMarks stretches ++ remainder.text.map (·, true))[i]? = some (c, true) →
    ∃ stretches' remainder',
      Divided ((stretchesText stretches ++ remainder.text).take i) stretches' remainder' ∧
        stretchesMarks stretches' ++ remainder'.text.map (·, true) =
          (stretchesMarks stretches ++ remainder.text.map (·, true)).take i := by
  intro stretches
  induction stretches with
  | nil =>
    intro i c _
    exact ⟨[], remainder.take i, rfl, by simp [stretchesMarks, Remainder.take]⟩
  | cons s stretches ih =>
    intro i c h
    rw [stretchesMarks_cons, List.append_assoc] at h
    rcases Nat.lt_or_ge i s.before.length with hbefore | hbefore
    · have hunopened : '{' ∉ s.before.take i := fun hmem =>
        s.unopened ((List.take_sublist i s.before).subset hmem)
      refine ⟨[], .ofUnopened (s.before.take i) hunopened, ?_, ?_⟩
      · rw [Divided, stretchesText_cons, Stretch.text, List.append_assoc, List.append_assoc,
          List.take_append_of_le_length hbefore.le]
        rfl
      · rw [stretchesMarks_cons, Stretch.marks, List.append_assoc, List.append_assoc,
          List.take_append_of_le_length (by simpa using hbefore.le), ← List.map_take]
        rfl
    · rcases Nat.lt_or_ge i s.marks.length with hwithin | hbehind
      · -- the character would be one of the placeholder
        rw [List.getElem?_append_left hwithin, Stretch.marks,
          List.getElem?_append_right (by simpa using hbefore)] at h
        have hmem := List.mem_of_getElem? h
        simp at hmem
      · rw [List.getElem?_append_right hbehind] at h
        obtain ⟨stretches', remainder', htake, hmarks⟩ := ih h
        refine ⟨s :: stretches', remainder', ?_, ?_⟩
        · have hlength : s.text.length = s.marks.length := by simp [Stretch.text, Stretch.marks]
          rw [stretchesText_cons, List.append_assoc, List.take_append,
            List.take_of_length_le (by omega), hlength]
          exact htake.cons s
        · rw [stretchesMarks_cons, stretchesMarks_cons, List.append_assoc, List.append_assoc,
            List.take_append, List.take_of_length_le hbehind, hmarks]

/-- When a route is cut off at a character outside its placeholders, the characters before it are
marked as before. -/
theorem marks_take {i : ℕ} {c : Char} (h : (marks route)[i]? = some (c, true)) :
    marks (String.ofList (route.toList.take i)) = (marks route).take i := by
  obtain ⟨stretches, remainder, hdivided⟩ := exists_divided route.toList
  rw [marks_eq_of_divided hdivided] at h ⊢
  obtain ⟨stretches', remainder', htake, hmarks⟩ := exists_divided_take h
  rw [← hdivided, ← String.toList_ofList (l := route.toList.take i)] at htake
  rw [marks_eq_of_divided htake, hmarks]

end Marks

end UrlPattern

namespace Route

open UrlPattern (marks question? stretchesMarks Stretch Remainder Divided)

/-! ## Counting braces -/

/-- The number of braces that are open behind a character. -/
def braceDepth (depth : ℕ) (c : Char) : ℕ :=
  if c = '{' then depth + 1 else if c = '}' then depth - 1 else depth

/-- The number of braces that are open behind a text. -/
def depthBehind (depth : ℕ) (text : List Char) : ℕ := text.foldl braceDepth depth

theorem queryPosition?_cons (depth : ℕ) (c : Char) (rest : List Char) :
    queryPosition? depth (c :: rest) =
      if c = '?' ∧ depth = 0 then some 0
      else (queryPosition? (braceDepth depth c) rest).map (· + 1) := by
  rw [queryPosition?, braceDepth]
  split_ifs <;> simp_all

/-- Where a question mark stands within a placeholder, a brace is open. -/
def Sheltered : ℕ → List (Char × Bool) → Prop
  | _, [] => True
  | depth, (c, outside) :: rest =>
    (c = '?' → outside = false → 0 < depth) ∧ Sheltered (braceDepth depth c) rest

theorem sheltered_append {marked more : List (Char × Bool)} : ∀ {depth : ℕ},
    Sheltered depth (marked ++ more) ↔
      Sheltered depth marked ∧ Sheltered (depthBehind depth (marked.map Prod.fst)) more := by
  induction marked with
  | nil => intro depth; simp [Sheltered, depthBehind]
  | cons m marked ih =>
    intro depth
    rw [List.cons_append, Sheltered, Sheltered, ih, and_assoc]
    rfl

theorem sheltered_fixed (text : List Char) : ∀ depth, Sheltered depth (text.map (·, true)) := by
  induction text with
  | nil => intro depth; trivial
  | cons c text ih =>
    intro depth
    exact ⟨by simp, ih _⟩

/-- Up to the next closing brace at least one brace is open behind an opening one. -/
theorem sheltered_inside {name : List Char} (h : '}' ∉ name) : ∀ {depth : ℕ}, 0 < depth →
    Sheltered depth ((name ++ ['}']).map (·, false)) := by
  induction name with
  | nil => intro depth hdepth; exact ⟨fun _ _ => hdepth, trivial⟩
  | cons c name ih =>
    intro depth hdepth
    rw [List.mem_cons, not_or] at h
    refine ⟨fun _ _ => hdepth, ih h.2 ?_⟩
    rw [braceDepth, if_neg (Ne.symm h.1)]
    split_ifs <;> omega

theorem sheltered_marks (route : String) : Sheltered 0 (marks route) := by
  obtain ⟨stretches, remainder, hdivided⟩ := UrlPattern.exists_divided route.toList
  rw [UrlPattern.marks_eq_of_divided hdivided, sheltered_append]
  refine ⟨?_, sheltered_fixed _ _⟩
  clear hdivided
  generalize 0 = depth
  induction stretches generalizing depth with
  | nil => trivial
  | cons s stretches ih =>
    rw [UrlPattern.stretchesMarks_cons, sheltered_append, Stretch.marks, sheltered_append]
    refine ⟨⟨sheltered_fixed _ _, ?_⟩, ih _⟩
    refine ⟨by simp, sheltered_inside s.unclosed ?_⟩
    rw [braceDepth, if_pos rfl]
    exact Nat.succ_pos _

/-! ## The position of the query string -/

/-- What is found stands outside the placeholders. -/
theorem getElem?_of_queryPosition? {marked : List (Char × Bool)} : ∀ {depth i : ℕ},
    Sheltered depth marked → queryPosition? depth (marked.map Prod.fst) = some i →
    marked[i]? = some ('?', true) := by
  induction marked with
  | nil => intro depth i _ h; cases h
  | cons m marked ih =>
    obtain ⟨c, outside⟩ := m
    intro depth i hsheltered h
    rw [List.map_cons, queryPosition?_cons] at h
    split_ifs at h with hfound
    · cases h
      obtain ⟨rfl, rfl⟩ := hfound
      cases outside with
      | true => rfl
      | false => exact absurd (hsheltered.1 rfl rfl) (Nat.lt_irrefl 0)
    · obtain ⟨j, hj, rfl⟩ := Option.map_eq_some_iff.mp h
      exact ih hsheltered.2 hj

/-- The first question mark outside the placeholders is found when no brace is open there. -/
theorem queryPosition?_eq_findIdx?_iff {marked : List (Char × Bool)} : ∀ {depth : ℕ},
    Sheltered depth marked →
    (queryPosition? depth (marked.map Prod.fst) = marked.findIdx? (· == ('?', true)) ↔
      ∀ i, marked.findIdx? (· == ('?', true)) = some i →
        depthBehind depth ((marked.map Prod.fst).take i) = 0) := by
  induction marked with
  | nil => intro depth _; simp [queryPosition?]
  | cons m marked ih =>
    obtain ⟨c, outside⟩ := m
    intro depth hsheltered
    rw [List.map_cons, queryPosition?_cons, List.findIdx?_cons]
    by_cases hmark : (c, outside) = ('?', true)
    · cases hmark
      by_cases hdepth : depth = 0 <;> simp [hdepth, depthBehind]
    · have hnot : ¬ (c = '?' ∧ depth = 0) := by
        rintro ⟨rfl, rfl⟩
        cases outside with
        | true => exact hmark rfl
        | false => exact absurd (hsheltered.1 rfl rfl) (Nat.lt_irrefl 0)
      have hinjective : Function.Injective (· + 1 : ℕ → ℕ) := fun _ _ h => Nat.succ.inj h
      rw [if_neg hnot, if_neg (by simpa using hmark),
        (Option.map_injective hinjective).eq_iff, ih hsheltered.2]
      constructor
      · rintro h i hi
        obtain ⟨j, hj, rfl⟩ := Option.map_eq_some_iff.mp hi
        exact h j hj
      · intro h j hj
        exact h (j + 1) (Option.map_eq_some_iff.mpr ⟨j, hj, rfl⟩)

theorem queryPosition?_eq_iff (route : String) :
    queryPosition? 0 route.toList = question? route ↔
      ∀ i, question? route = some i → depthBehind 0 (route.toList.take i) = 0 := by
  have h := queryPosition?_eq_findIdx?_iff (sheltered_marks route)
  rwa [UrlPattern.map_fst_marks] at h

theorem getElem?_marks_of_queryPosition? {route : String} {i : ℕ}
    (h : queryPosition? 0 route.toList = some i) : (marks route)[i]? = some ('?', true) := by
  rw [← UrlPattern.map_fst_marks] at h
  exact getElem?_of_queryPosition? (sheltered_marks route) h

/-! ## What is left of a route -/

/-- The route without slashes at its front, then without each configured beginning that it has by
then. -/
def path (config : Config) (route : String) : String :=
  String.ofList (config.stripRoutePrefixes.foldl dropBeginning
    (route.toList.dropWhile (· == '/')))

/-- A question mark outside the placeholders is left when the first one is not found. -/
theorem mem_marks_strip (config : Config) (route : String) :
    ('?', true) ∈ marks (strip config route) ↔
      queryPosition? 0 (path config route).toList ≠ question? (path config route) := by
  have hstrip : strip config route = String.ofList (beforeQuery (path config route).toList) := by
    rw [strip, path, String.toList_ofList]
  rw [hstrip, beforeQuery]
  generalize path config route = route
  cases hposition : queryPosition? 0 route.toList with
  | none =>
    rw [String.ofList_toList, question?, ne_comm, Option.ne_none_iff_isSome,
      List.findIdx?_isSome, List.any_eq_true]
    simp
  | some i =>
    have hfound := getElem?_marks_of_queryPosition? hposition
    obtain ⟨hi, hmark⟩ := List.getElem?_eq_some_iff.mp hfound
    rw [UrlPattern.marks_take hfound, List.mem_take_iff_getElem, question?, ne_comm, ne_eq,
      List.findIdx?_eq_some_iff_getElem]
    constructor
    · rintro ⟨j, hj, hearlier⟩ ⟨_, -, hfirst⟩
      simpa [hearlier] using hfirst j (by omega)
    · intro hnot
      by_contra hnone
      refine hnot ⟨hi, by simp [hmark], fun j hj => ?_⟩
      rw [Bool.not_eq_true, beq_eq_false_iff_ne]
      exact fun hearlier => hnone ⟨j, by omega, hearlier⟩

/-- Bare names in placeholders leave what stands outside. -/
theorem mem_marks_normalize {c : Char} (route : String) :
    (c, true) ∈ marks (normalize route).1 ↔ (c, true) ∈ marks route := by
  rw [UrlPattern.mem_marks, UrlPattern.mem_marks, (parse_normalize route).1]
  have hsame : ∀ text,
      UrlPiece.fixed text ∈ (UrlPattern.parse route).pieces.map (UrlPiece.rename bareName) ↔
        UrlPiece.fixed text ∈ (UrlPattern.parse route).pieces := by
    intro text
    rw [List.mem_map]
    constructor
    · rintro ⟨piece, hpiece, heq⟩
      cases piece with
      | fixed other =>
        cases heq
        exact hpiece
      | placeholder name => cases heq
    · exact fun hpiece => ⟨_, hpiece, rfl⟩
  simp only [hsame]

theorem mem_marks_of_layout {route : String} {tokens : List Token} {tail : Tail} {c : Char}
    (h : LaidOut route.toList tokens tail) :
    (c, true) ∈ marks route ↔ (∃ hc, .fixed c hc ∈ tokens) ∨ c ∈ tail.text := by
  rw [marks, flatMap_pieces_of_layout (by simp [UrlPattern.pieceMarks]) h, List.mem_append,
    List.mem_flatMap]
  refine or_congr ⟨?_, ?_⟩ (by simp [UrlPattern.pieceMarks])
  · rintro ⟨t, ht, hc⟩
    cases t with
    | fixed d hd =>
      obtain rfl : c = d := by simpa [Token.piece, UrlPattern.pieceMarks] using hc
      exact ⟨hd, ht⟩
    | slot name hname => simp [Token.piece, UrlPattern.pieceMarks] at hc
  · rintro ⟨hc, ht⟩
    exact ⟨_, ht, by simp [Token.piece, UrlPattern.pieceMarks]⟩

/-- To take placeholders out leaves what stands outside of them, slashes apart. -/
theorem mem_marks_dropAll {c : Char} (hslash : c ≠ '/') : ∀ {names : List String} {route : String},
    Plain route → (∀ name ∈ names, Bare name) →
    ((c, true) ∈ marks (dropAll route names) ↔ (c, true) ∈ marks route) := by
  intro names
  induction names with
  | nil => intro route _ _; rfl
  | cons name names ih =>
    intro route hroute hnames
    have hname := hnames name (by simp)
    obtain ⟨tokens, tail, hlaid⟩ := exists_layout hroute
    obtain ⟨side, rest, hremoved, hleft, -⟩ := exists_left hlaid hname
    have hplain := (dropPlaceholder_spec hroute hname).1.plain hroute
    have hone : (c, true) ∈ marks (dropPlaceholder route name) ↔ (c, true) ∈ marks route := by
      rw [mem_marks_of_layout hleft, mem_marks_of_layout hlaid]
      simp only [hremoved.mem_fixed hslash]
    exact (ih hplain fun n hn => hnames n (List.mem_cons_of_mem name hn)).trans hone

end Route

/-! ## The URL of an operation -/

/-- The position at which the query string is cut off is that of a question mark outside the
placeholders, and it is that of the first one unless a brace before it is still open to the count.
Then, and only then, a question mark is left in the fixed text of an operation's URL, as long as no
placeholder is taken out of a route with nested braces. -/
theorem question_left_iff (route : String) (catalog : Catalog) (config : Config)
    (types : ModelTypes) (op : DeclaredOperation) (name : String) :
    (∀ i, Route.queryPosition? 0 route.toList = some i →
      (UrlPattern.marks route)[i]? = some ('?', true)) ∧
    (Route.queryPosition? 0 route.toList = UrlPattern.question? route ↔
      ∀ i, UrlPattern.question? route = some i →
        Route.depthBehind 0 (route.toList.take i) = 0) ∧
    let operation := extractOperation catalog config types op name
    let path := Route.path config op.route
    (∀ n ∈ operation.optionalNames, Route.Bare n) →
      (operation.optionalNames ≠ [] → Route.Plain (op.readRoute config)) →
        ((∃ text, .fixed text ∈ operation.url.pieces ∧ '?' ∈ text.toList) ↔
          ∃ i, UrlPattern.question? path = some i ∧
            0 < Route.depthBehind 0 (path.toList.take i)) := by
  refine ⟨fun i => Route.getElem?_marks_of_queryPosition?, Route.queryPosition?_eq_iff route, ?_⟩
  intro operation path hnames hroute
  have hurl : operation.url =
      UrlPattern.parse (Route.dropAll (op.readRoute config) operation.optionalNames) :=
    extractOperation_url catalog config types op name
  have hleft : ('?', true) ∈
        UrlPattern.marks (Route.dropAll (op.readRoute config) operation.optionalNames) ↔
      ('?', true) ∈ UrlPattern.marks (op.readRoute config) := by
    by_cases hnone : operation.optionalNames = []
    · rw [hnone]
      rfl
    · exact Route.mem_marks_dropAll (by decide) (hroute hnone) hnames
  have hmissed : Route.queryPosition? 0 path.toList ≠ UrlPattern.question? path ↔
      ∃ i, UrlPattern.question? path = some i ∧
        0 < Route.depthBehind 0 (path.toList.take i) := by
    rw [ne_eq, Route.queryPosition?_eq_iff]
    simp [Nat.pos_iff_ne_zero]
  rw [hurl, ← UrlPattern.mem_marks, hleft, DeclaredOperation.readRoute, Route.mem_marks_normalize,
    Route.mem_marks_strip]
  exact hmissed

/-- The lines of an order by its number.  Braces are nested in the constraint of the number. -/
def numberedLines : DeclaredOperation where
  controller := "Orders"
  route := "orders/\x7bid:regex(^\\d\x7b3\x7d$)\x7d/\x7bline?\x7d?all=1"
  params :=
    [{ name := "id", type := .named "string" [], source := .uri },
     { name := "line", type := .named "string" [], source := .uri }]

/-- The query string is cut off the route of the lines. -/
theorem numberedLines_cut :
    let operation := extractOperation ({} : Document).catalog {} ⟨[], [], []⟩ numberedLines "Lines"
    ¬ ∃ text, .fixed text ∈ operation.url.pieces ∧ '?' ∈ text.toList := by
  intro operation
  have hnames : ∀ n ∈ operation.optionalNames, Route.Bare n := by decide +kernel
  have hroute : Route.Plain (numberedLines.readRoute {}) := by decide +kernel
  rw [(question_left_iff numberedLines.route _ _ _ _ _).2.2 hnames fun _ => hroute]
  rintro ⟨i, hi, hopen⟩
  obtain ⟨hfirst, hclosed⟩ : UrlPattern.question? (Route.path {} numberedLines.route) = some 34 ∧
      Route.depthBehind 0 ((Route.path {} numberedLines.route).toList.take 34) = 0 := by
    decide +kernel
  obtain rfl : i = 34 := Option.some.inj (hi.symm.trans hfirst)
  exact hopen.ne' hclosed

/-- A search.  The brace in its route is never closed. -/
def search : DeclaredOperation where
  controller := "Items"
  route := "items/\x7bid?x=1"

/-- The question mark in the route of the search is outside of placeholders.  It is not found, and
is left in the URL. -/
theorem search_left :
    let operation := extractOperation ({} : Document).catalog {} ⟨[], [], []⟩ search "Search"
    Route.queryPosition? 0 search.route.toList ≠ UrlPattern.question? search.route ∧
      operation.url.pieces = [.fixed "items/\x7bid?x=1"] := by
  decide +kernel

end DataContract
