import DataContract.Proofs.Operation.Normalization
import DataContract.Proofs.Operation.RouteNames

/-!
# Names behind a shared route

The route that the operations of a controller share is looked for as it is declared, but in a route
that has bare names in its placeholders.  If its own placeholders have bare names, it is found at
the front of each route that begins with it.  With an optional, a constrained or a catch-all
placeholder it is not found, and no name is suggested.

Results:

* `Route.normalizeText_append`: what follows balanced text is rewritten by itself.
* `Route.named_normalizeText`: rewriting keeps the segments without placeholder.
* `UrlPattern.exists_stretch_of_braces`: braces with nothing but a name between them are a
  placeholder.
* `Route.allBare_of_infix`: what is a part of a rewritten route has bare names.
* `suggestedName_behind_shared_iff`: which shared routes are recognised.
-/

namespace DataContract

/-! ## Balanced text -/

/-- With `depth` braces open before it, the text closes these and each one that it opens, and none
that is not open. -/
def balanced (depth : ℕ) : List Char → Bool
  | [] => depth = 0
  | c :: rest =>
    if c = '{' then balanced (depth + 1) rest
    else if c = '}' then 0 < depth && balanced (depth - 1) rest
    else balanced depth rest

section Balanced

variable {depth : ℕ} {before behind text : List Char}

/-- What is open is closed. -/
theorem mem_of_balanced (h : balanced (depth + 1) text) : '}' ∈ text := by
  induction text generalizing depth with
  | nil => simp [balanced] at h
  | cons c text ih =>
    rw [balanced] at h
    split_ifs at h with hopen hclose
    · exact List.mem_cons_of_mem _ (ih h)
    · exact hclose ▸ List.mem_cons_self
    · exact List.mem_cons_of_mem _ (ih h)

/-- Behind each opening brace there is a closing one. -/
theorem closed_of_balanced (h : balanced depth (before ++ '{' :: behind)) : '}' ∈ behind := by
  induction before generalizing depth with
  | nil => exact mem_of_balanced h
  | cons c before ih =>
    rw [List.cons_append, balanced] at h
    split_ifs at h with hopen hclose
    · exact ih h
    · exact ih (Bool.and_eq_true_iff.mp h).2
    · exact ih h

end Balanced

/-! ## Stretches -/

namespace UrlPattern

variable {text before inner behind : List Char} {stretches : List Stretch} {remainder : Remainder}

/-- Balanced text is a row of stretches and text without an opening brace. -/
theorem exists_stretches_of_balanced (h : balanced 0 text) :
    ∃ stretches tail, '{' ∉ tail ∧ text = stretchesText stretches ++ tail := by
  obtain ⟨stretches, remainder, hdivided⟩ := exists_divided text
  refine ⟨stretches, remainder.text, fun hopen => ?_, hdivided⟩
  obtain ⟨before, behind, htext⟩ := List.append_of_mem hopen
  rw [hdivided, htext, ← List.append_assoc] at h
  exact remainder.unclosed before behind htext (closed_of_balanced h)

/-- In a row of stretches whose names have no opening brace, braces with no closing one between them
are the placeholder of a stretch. -/
theorem exists_stretch_of_braces (h : Divided text stretches remainder)
    (hnames : ∀ s ∈ stretches, '{' ∉ s.name) (hinner : '}' ∉ inner)
    (htext : text = before ++ '{' :: (inner ++ '}' :: behind)) :
    ∃ s ∈ stretches, s.name = inner := by
  rw [Divided] at h
  rw [h] at htext
  clear h
  induction stretches generalizing before with
  | nil => exact absurd (by simp) (remainder.unclosed _ _ htext)
  | cons s stretches ih =>
    rw [List.forall_mem_cons] at hnames
    have hbraces : s.before ++ '{' :: (s.name ++ '}' ::
        (stretchesText stretches ++ remainder.text)) =
          before ++ '{' :: (inner ++ '}' :: behind) := by
      rw [← htext]
      simp [Stretch.text]
    obtain ⟨between, -, hbetween⟩ := Text.exists_of_append_eq s.unopened hbraces
    cases between with
    | nil =>
      -- the braces are those of this stretch
      have hname := congrArg (Text.cut? ['}']) (List.cons.inj hbetween).2
      rw [Text.cut?_first s.unclosed, Text.cut?_first hinner] at hname
      exact ⟨s, List.mem_cons_self, congrArg Prod.fst (Option.some.inj hname)⟩
    | cons c between =>
      -- they stand behind it, as there is none within its name
      have hlater : (s.name ++ ['}']) ++ (stretchesText stretches ++ remainder.text) =
          between ++ '{' :: (inner ++ '}' :: behind) := by
        rw [List.append_assoc]
        exact (List.cons.inj hbetween).2
      have hname : '{' ∉ s.name ++ ['}'] := by simpa using hnames.1
      obtain ⟨between', -, hrest⟩ := Text.exists_of_append_eq hname hlater
      obtain ⟨s', hs', heq⟩ := ih hnames.2 hrest
      exact ⟨s', List.mem_cons_of_mem _ hs', heq⟩

end UrlPattern

namespace Route

open UrlPattern (Stretch stretchesText)

variable {part rest shared behind : List Char} {stretches : List Stretch}

/-- Text before the first opening brace is kept. -/
theorem normalizeText_unopened (h : '{' ∉ part) :
    (normalizeText (part ++ rest)).1 = part ++ (normalizeText rest).1 := by
  obtain ⟨stretches, remainder, hdivided⟩ := UrlPattern.exists_divided rest
  rw [hdivided]
  cases stretches with
  | nil =>
    let longer : UrlPattern.Remainder :=
      { text := part ++ remainder.text
        unclosed := by
          intro before behind htext
          obtain ⟨between, -, hrest⟩ := Text.exists_of_append_eq h htext
          exact remainder.unclosed between behind hrest }
    have hlonger := normalizeText_remainder longer
    rw [UrlPattern.stretchesText_nil, List.nil_append, normalizeText_remainder, hlonger]
  | cons s stretches =>
    let longer : Stretch :=
      { s with
        before := part ++ s.before
        unopened := by simp [h, s.unopened] }
    have htext : part ++ (s.text ++ (stretchesText stretches ++ remainder.text)) =
        longer.text ++ (stretchesText stretches ++ remainder.text) := by
      simp [Stretch.text, longer]
    rw [UrlPattern.stretchesText_cons, List.append_assoc, htext, normalizeText_stretch,
      normalizeText_stretch]
    simp [bareStretch, Stretch.text, longer]

theorem normalizeText_stretches (stretches : List Stretch) (rest : List Char) :
    (normalizeText (stretchesText stretches ++ rest)).1 =
      stretchesText (stretches.map bareStretch) ++ (normalizeText rest).1 := by
  induction stretches with
  | nil => rfl
  | cons s stretches ih =>
    rw [UrlPattern.stretchesText_cons, List.append_assoc, normalizeText_stretch, ih, List.map_cons,
      UrlPattern.stretchesText_cons, List.append_assoc]

/-- What follows balanced text is rewritten by itself. -/
theorem normalizeText_append (h : balanced 0 shared) : (normalizeText (shared ++ behind)).1 =
    (normalizeText shared).1 ++ (normalizeText behind).1 := by
  obtain ⟨stretches, tail, htail, rfl⟩ := UrlPattern.exists_stretches_of_balanced h
  have htext : normalizeText tail = (tail, []) := normalizeText_remainder (.ofUnopened tail htail)
  rw [List.append_assoc, normalizeText_stretches, normalizeText_unopened htail,
    normalizeText_stretches, htext, List.append_assoc]

/-! ## Rewritten segments -/

/-- The two segments are the same, or both hold a placeholder. -/
def SameNamed (a b : List Char) : Prop := a = b ∨ '{' ∈ a ∧ '{' ∈ b

/-- Segment by segment the two paths are the same, or both hold a placeholder. -/
def SameSegments (a b : List Char) : Prop :=
  List.Forall₂ SameNamed (Text.pieces '/' a) (Text.pieces '/' b)

section SameSegments

variable {a b name name' : List Char}

theorem SameNamed.append (h : SameNamed a b) (part : List Char) :
    SameNamed (part ++ a) (part ++ b) := by
  rcases h with rfl | ⟨ha, hb⟩
  · exact Or.inl rfl
  · exact Or.inr ⟨List.mem_append_right part ha, List.mem_append_right part hb⟩

theorem SameSegments.refl (a : List Char) : SameSegments a a :=
  List.forall₂_same.mpr fun _ _ => Or.inl rfl

theorem SameSegments.named_eq (h : SameSegments a b) : named a = named b := by
  rw [named, named, segments, segments, List.filter_filter, List.filter_filter]
  rw [SameSegments] at h
  generalize Text.pieces '/' a = left, Text.pieces '/' b = right at h
  induction h with
  | nil => rfl
  | cons hsame _ ih =>
    rcases hsame with rfl | ⟨hleft, hright⟩
    · rw [List.filter_cons, List.filter_cons, ih]
    · rw [List.filter_cons_of_neg (by simp [hleft]), List.filter_cons_of_neg (by simp [hright]), ih]

/-- A text without separator becomes part of the first piece. -/
theorem exists_pieces_append (h : '/' ∉ part) (rest : List Char) :
    ∃ first more, Text.pieces '/' rest = first :: more ∧
      Text.pieces '/' (part ++ rest) = (part ++ first) :: more := by
  induction part with
  | nil =>
    obtain ⟨first, more, hrest⟩ := List.exists_cons_of_ne_nil (Text.pieces_ne_nil '/' rest)
    exact ⟨first, more, hrest, hrest⟩
  | cons c part ih =>
    rw [List.mem_cons, not_or] at h
    obtain ⟨first, more, hrest, hpart⟩ := ih h.2
    refine ⟨first, more, hrest, ?_⟩
    rw [List.cons_append, Text.pieces, if_neg (Ne.symm h.1), hpart]
    rfl

theorem SameSegments.append (h : SameSegments a b) (part : List Char) :
    SameSegments (part ++ a) (part ++ b) := by
  induction part with
  | nil => exact h
  | cons c part ih =>
    by_cases hslash : c = '/'
    · rw [SameSegments, List.cons_append, List.cons_append, Text.pieces, Text.pieces, if_pos hslash,
        if_pos hslash]
      exact .cons (Or.inl rfl) ih
    · have hpart : '/' ∉ [c] := by simpa using Ne.symm hslash
      obtain ⟨first, more, hrest, hcons⟩ := exists_pieces_append hpart (part ++ a)
      obtain ⟨first', more', hrest', hcons'⟩ := exists_pieces_append hpart (part ++ b)
      rw [SameSegments, hrest, hrest', List.forall₂_cons] at ih
      rw [SameSegments, List.cons_append, List.cons_append, ← List.singleton_append, hcons,
        ← List.singleton_append (l := part ++ b), hcons']
      exact .cons (ih.1.append [c]) ih.2

/-- A segment holds a placeholder whatever its name is. -/
theorem SameSegments.placeholder (h : SameSegments a b) (hname : '/' ∉ name)
    (hname' : '/' ∉ name') : SameSegments ('{' :: (name ++ a)) ('{' :: (name' ++ b)) := by
  have hopened : '/' ∉ '{' :: name := by simpa
  have hopened' : '/' ∉ '{' :: name' := by simpa
  obtain ⟨first, more, hrest, hcons⟩ := exists_pieces_append hopened a
  obtain ⟨first', more', hrest', hcons'⟩ := exists_pieces_append hopened' b
  rw [SameSegments, hrest, hrest', List.forall₂_cons] at h
  rw [SameSegments, ← List.cons_append, ← List.cons_append, hcons, hcons']
  exact .cons (Or.inr ⟨by simp, by simp⟩) h.2

theorem sameSegments_normalizeText (stretches : List Stretch) (remainder : UrlPattern.Remainder)
    (h : ∀ s ∈ stretches, '/' ∉ s.name) :
    SameSegments (stretchesText (stretches.map bareStretch) ++ remainder.text)
      (stretchesText stretches ++ remainder.text) := by
  induction stretches with
  | nil => exact .refl _
  | cons s stretches ih =>
    rw [List.forall_mem_cons] at h
    have hname : '/' ∉ (bareStretch s).name := by
      rw [bareStretch_name]
      intro hmem
      have hsub := (bareName_sublist (String.ofList s.name)).subset hmem
      exact h.1 (by rwa [String.toList_ofList] at hsub)
    have hlater := ((ih h.2).append ['}']).placeholder hname h.1
    simpa [Stretch.text, bareStretch] using hlater.append s.before

/-- Rewriting keeps the segments without placeholder, if no slash stands in a placeholder. -/
theorem named_normalizeText
    (h : ∀ name ∈ (UrlPattern.parse (String.ofList behind)).placeholders, '/' ∉ name.toList) :
    named (normalizeText behind).1 = named behind := by
  obtain ⟨stretches, remainder, hdivided⟩ := UrlPattern.exists_divided behind
  have hroute : UrlPattern.Divided (String.ofList behind).toList stretches remainder := by
    rwa [String.toList_ofList]
  rw [UrlPattern.placeholders_of_divided hroute, List.forall_mem_map] at h
  have hsame := sameSegments_normalizeText stretches remainder fun s hs => by simpa using h s hs
  rw [← (normalizeText_of_divided hdivided).1, ← hdivided] at hsame
  exact hsame.named_eq

end SameSegments

/-! ## Bare routes -/

/-- Each placeholder has a bare name. -/
def AllBare (route : String) : Prop :=
  ∀ name ∈ (UrlPattern.parse route).placeholders, bareName name = name

instance : DecidablePred AllBare := fun route =>
  inferInstanceAs (Decidable (∀ name ∈ (UrlPattern.parse route).placeholders, bareName name = name))

/-- The bare name of each placeholder holds no opening brace and has itself for its bare name. -/
def Settled (route : String) : Prop :=
  ∀ name ∈ (UrlPattern.parse route).placeholders,
    '{' ∉ (bareName name).toList ∧ bareName (bareName name) = bareName name

instance : DecidablePred Settled := fun route =>
  inferInstanceAs (Decidable (∀ name ∈ (UrlPattern.parse route).placeholders,
    '{' ∉ (bareName name).toList ∧ bareName (bareName name) = bareName name))

section Bare

variable {route shared : String}

/-- A route with bare names is not changed when it is rewritten. -/
theorem normalizeText_of_allBare (h : AllBare route) :
    (normalizeText route.toList).1 = route.toList := by
  obtain ⟨stretches, remainder, hdivided⟩ := UrlPattern.exists_divided route.toList
  rw [AllBare, UrlPattern.placeholders_of_divided hdivided, List.forall_mem_map] at h
  have hsame : stretchesText (stretches.map bareStretch) = stretchesText stretches := by
    rw [stretchesText, stretchesText, List.flatMap_map]
    refine List.flatMap_congr fun s hs => ?_
    simp [bareStretch, Stretch.text, h s hs]
  rw [(normalizeText_of_divided hdivided).1, hsame, ← hdivided]

/-- What is a part of a rewritten route has bare names. -/
theorem allBare_of_infix (hsettled : Settled route)
    (h : shared.toList <:+: (normalizeText route.toList).1) : AllBare shared := by
  obtain ⟨stretches, remainder, hshared⟩ := UrlPattern.exists_divided shared.toList
  obtain ⟨routeStretches, routeRemainder, hroute⟩ := UrlPattern.exists_divided route.toList
  intro name hname
  rw [UrlPattern.placeholders_of_divided hshared] at hname
  obtain ⟨s, hs, rfl⟩ := List.mem_map.mp hname
  have hbareNames : ∀ t ∈ routeStretches, '{' ∉ (bareName (String.ofList t.name)).toList ∧
      bareName (bareName (String.ofList t.name)) = bareName (String.ofList t.name) := by
    intro t ht
    refine hsettled (String.ofList t.name) ?_
    rw [UrlPattern.placeholders_of_divided hroute]
    exact List.mem_map_of_mem ht
  have hnames : ∀ s ∈ routeStretches.map bareStretch, '{' ∉ s.name := by
    intro s hs
    obtain ⟨t, ht, rfl⟩ := List.mem_map.mp hs
    rw [bareStretch_name]
    exact (hbareNames t ht).1
  -- the braces of the placeholder are part of the rewritten route
  obtain ⟨before, behind, htext⟩ := h
  obtain ⟨earlier, later, rfl⟩ := List.append_of_mem hs
  have hbraces : (normalizeText route.toList).1 =
      before ++ stretchesText earlier ++ s.before ++ '{' :: (s.name ++ '}' ::
        (stretchesText later ++ remainder.text ++ behind)) := by
    rw [← htext, hshared]
    simp [stretchesText, Stretch.text]
  obtain ⟨s', hs', heq⟩ := UrlPattern.exists_stretch_of_braces
    (normalizeText_of_divided hroute).1 hnames s.unclosed hbraces
  obtain ⟨t, ht, rfl⟩ := List.mem_map.mp hs'
  have hbare : String.ofList s.name = bareName (String.ofList t.name) := by
    rw [← heq, bareStretch_name, String.ofList_toList]
  rw [hbare, (hbareNames t ht).2]

end Bare

end Route

open Route

/-! ## Recognised routes -/

section Recognised

variable {config : Config} {op : DeclaredOperation} {front rest : List Char}

/-- The name is that of the segments behind the leftmost place of the anchor. -/
theorem suggestedName?_eq_of_leftmost (hanchor : op.anchor config ≠ "")
    (h : Leftmost (op.readRoute config).toList (op.anchor config).toList front rest) :
    suggestedName? config op.route op.routePrefix op.controller = nameOfPath rest := by
  refine Option.ext fun name => ?_
  rw [suggestedName?_eq_some_iff]
  constructor
  · rintro ⟨-, front', rest', hleftmost, hname⟩
    rwa [(h.eq hleftmost).2]
  · exact fun hname => ⟨hanchor, front, rest, h, hname⟩

/-- Where the anchor does not occur, no name is suggested. -/
theorem suggestedName?_eq_none (h : ¬ (op.anchor config).toList <:+: (op.readRoute config).toList) :
    suggestedName? config op.route op.routePrefix op.controller = none := by
  refine Option.eq_none_iff_forall_ne_some.mpr fun name hname => h ?_
  obtain ⟨-, front, rest, hleftmost, -⟩ := (suggestedName?_eq_some_iff config op).mp hname
  exact ⟨front, rest, hleftmost.text.symm⟩

/-- The name is made of the segments of the path that hold no placeholder, and there is none
without such segments. -/
def NamedBy (path : List Char) (suggested : Option String) : Prop :=
  ∀ name, suggested = some name ↔
    named path ≠ [] ∧ name = "_".intercalate ((named path).map nameSegment)

theorem namedBy_iff {path : List Char} {suggested : Option String} :
    NamedBy path suggested ↔ suggested = nameOfPath path := by
  rw [Option.ext_iff]
  exact forall_congr' fun name => by rw [nameOfPath_eq_some_iff]

theorem namedBy_none_iff {path : List Char} : NamedBy path none ↔ named path = [] := by
  constructor
  · intro h
    by_contra hne
    exact nomatch (h _).mpr ⟨hne, rfl⟩
  · intro h name
    simp [h]

end Recognised

/-- Behind a shared route with balanced braces the suggested name is that of the segments behind it,
if the placeholders of the shared route have bare names.  If one of them has not, no name is
suggested, which is right only if each of the segments holds a placeholder; at least where the bare
names in the route hold no braces and would not change once more.  The segments are those of the
rewritten route, and those of the route as well, unless a slash stands in a placeholder. -/
theorem suggestedName_behind_shared_iff (config : Config) (op : DeclaredOperation)
    {declared : String} {behind : List Char} (hdeclared : op.routePrefix = some declared)
    (hshared : strip config declared ≠ "") (hbalanced : balanced 0 (strip config declared).toList)
    (hroute : (strip config op.route).toList = (strip config declared).toList ++ behind) :
    let suggested := suggestedName? config op.route op.routePrefix op.controller
    let rest := (normalizeText behind).1
    (AllBare (strip config declared) → NamedBy rest suggested) ∧
      (Settled (strip config op.route) →
        (NamedBy rest suggested ↔ AllBare (strip config declared) ∨ named rest = [])) ∧
      ((∀ name ∈ (UrlPattern.parse (String.ofList behind)).placeholders, '/' ∉ name.toList) →
        named rest = named behind) := by
  intro suggested rest
  have hanchor : op.anchor config = strip config declared := by
    rw [DeclaredOperation.anchor, hdeclared]
    exact if_neg hshared
  have hnormalized : (op.readRoute config).toList =
      (normalizeText (strip config op.route).toList).1 := String.toList_ofList
  have hbare : AllBare (strip config declared) → NamedBy rest suggested := by
    intro hbare
    have hpath : (op.readRoute config).toList = (op.anchor config).toList ++ rest := by
      rw [hnormalized, hroute, normalizeText_append hbalanced, normalizeText_of_allBare hbare,
        hanchor]
    -- no place is further to the left than the front
    have hleftmost : Leftmost (op.readRoute config).toList (op.anchor config).toList [] rest :=
      ⟨hpath, fun _ _ _ => Nat.zero_le _⟩
    exact namedBy_iff.mpr (suggestedName?_eq_of_leftmost (hanchor ▸ hshared) hleftmost)
  refine ⟨hbare, fun hsettled => ?_, named_normalizeText⟩
  by_cases hall : AllBare (strip config declared)
  · exact iff_of_true (hbare hall) (Or.inl hall)
  · have hnone : suggested = none := by
      refine suggestedName?_eq_none fun hinfix => hall ?_
      rw [hanchor, hnormalized] at hinfix
      exact allBare_of_infix hsettled hinfix
    rw [hnone, namedBy_none_iff, or_iff_right hall]

/-- An item of a shop is put away. -/
def shopArchive : DeclaredOperation where
  controller := "Items"
  routePrefix := some "api/shops/\x7bshop\x7d"
  route := "api/shops/\x7bshop\x7d/\x7bid:int\x7d/archive"

theorem shopArchive_named : strip {} "api/shops/\x7bshop\x7d" ≠ "" ∧
    balanced 0 (strip {} "api/shops/\x7bshop\x7d").toList ∧
    AllBare (strip {} "api/shops/\x7bshop\x7d") ∧ Settled (strip {} shopArchive.route) ∧
    NamedBy "/\x7bid\x7d/archive".toList
      (suggestedName? {} shopArchive.route shopArchive.routePrefix shopArchive.controller) := by
  have hshared : strip {} "api/shops/\x7bshop\x7d" ≠ "" := by decide +kernel
  have hbalanced : balanced 0 (strip {} "api/shops/\x7bshop\x7d").toList := by decide +kernel
  have hbare : AllBare (strip {} "api/shops/\x7bshop\x7d") := by decide +kernel
  have hsettled : Settled (strip {} shopArchive.route) := by decide +kernel
  have hroute : (strip {} shopArchive.route).toList =
      (strip {} "api/shops/\x7bshop\x7d").toList ++ "/\x7bid:int\x7d/archive".toList := by
    decide +kernel
  have hrest : (normalizeText "/\x7bid:int\x7d/archive".toList).1 =
      "/\x7bid\x7d/archive".toList := by decide +kernel
  have hnamed := (suggestedName_behind_shared_iff {} shopArchive rfl hshared hbalanced hroute).2.1
    hsettled
  rw [hrest] at hnamed
  exact ⟨hshared, hbalanced, hbare, hsettled, hnamed.mpr (Or.inl hbare)⟩

/-- An item of a shop that has a number is put away. -/
def numberedShopArchive : DeclaredOperation where
  controller := "Items"
  routePrefix := some "api/shops/\x7bshop:int\x7d"
  route := "api/shops/\x7bshop:int\x7d/archive"

/-- A constraint in the shared route hides the name, although the route begins with it. -/
theorem numberedShopArchive_unnamed :
    balanced 0 (strip {} "api/shops/\x7bshop:int\x7d").toList ∧
    (strip {} numberedShopArchive.route).toList =
      (strip {} "api/shops/\x7bshop:int\x7d").toList ++ "/archive".toList ∧
    named "/archive".toList = ["archive".toList] ∧
    suggestedName? {} numberedShopArchive.route numberedShopArchive.routePrefix
      numberedShopArchive.controller = none := by
  decide +kernel

end DataContract
