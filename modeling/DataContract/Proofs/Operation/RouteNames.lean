import DataContract.Proofs.Operation.OptionalParameters

/-!
# Names from routes

The name that a route suggests for an action is made of the segments behind an anchor: the route
that the operations of the controller share, or the name of the controller.  The anchor is looked
for as a text, and the first place where it occurs is taken, whether it stands there for whole
segments or lies within longer ones.

Results:

* `Route.segments_append`: no segment reaches across a slash.
* `Route.WholeSegments.segments_eq`: an anchor between slashes stands for whole segments.
* `Route.Leftmost.named_ne_nil`: behind a later place between slashes there are fewer segments.
* `suggestedName_iff`: the suggested names, and when they are those behind whole segments.
-/

namespace DataContract

namespace Text

variable {separator c : Char} {text : List Char}

theorem pieces_append_cons (separator : Char) (before after : List Char) :
    pieces separator (before ++ separator :: after) =
      pieces separator before ++ pieces separator after := by
  induction before with
  | nil => simp [pieces]
  | cons c before ih =>
    rw [List.cons_append, pieces, pieces, ih]
    split_ifs
    · rfl
    · cases hpieces : pieces separator before with
      | nil => exact absurd hpieces (pieces_ne_nil _ _)
      | cons piece more => rfl

/-- The pieces hold the characters of the text, except for the separators. -/
theorem exists_mem_pieces_iff (hother : c ≠ separator) :
    (∃ piece ∈ pieces separator text, c ∈ piece) ↔ c ∈ text := by
  induction text with
  | nil => simp [pieces]
  | cons d text ih =>
    rw [pieces]
    split_ifs with hseparator
    · simp [ih, hseparator, hother]
    · cases hpieces : pieces separator text with
      | nil => exact absurd hpieces (pieces_ne_nil _ _)
      | cons first more =>
        rw [hpieces] at ih
        simp [← ih, or_assoc]

/-- A text is cut at the first occurrence of a pattern. -/
theorem length_le_of_cut? {pattern before after before' after' : List Char}
    (h : cut? pattern text = some (before, after)) (htext : text = before' ++ pattern ++ after') :
    before.length ≤ before'.length := by
  induction text generalizing before before' with
  | nil =>
    rw [cut?] at h
    split_ifs at h
    cases h
    exact Nat.zero_le _
  | cons c text ih =>
    rw [cut?] at h
    split_ifs at h with hhere
    · cases h
      exact Nat.zero_le _
    · obtain ⟨⟨b, a⟩, hcut, heq⟩ := Option.map_eq_some_iff.mp h
      cases heq
      cases before' with
      | nil =>
        have hprefix : pattern <+: c :: text := ⟨after', htext.symm⟩
        exact absurd (List.isPrefixOf_iff_prefix.mpr hprefix) hhere
      | cons d before' => exact Nat.succ_le_succ (ih hcut (List.cons.inj htext).2)

end Text

namespace Route

/-! ## Segments -/

/-- The segments of a path, without empty ones. -/
def segments (path : List Char) : List (List Char) :=
  (Text.pieces '/' path).filter (!·.isEmpty)

/-- The segments that hold no placeholder. -/
def named (path : List Char) : List (List Char) := (segments path).filter ('{' ∉ ·)

/-- No segment reaches from one text into the next one. -/
def Boundary (before after : List Char) : Prop :=
  ∀ c ∈ before.getLast?, ∀ d ∈ after.head?, c = '/' ∨ d = '/'

variable {before after anchor front rest path : List Char}

@[simp] theorem segments_nil : segments [] = [] := rfl

theorem segments_append_slash (before after : List Char) :
    segments (before ++ '/' :: after) = segments before ++ segments after := by
  rw [segments, Text.pieces_append_cons, List.filter_append]
  rfl

theorem segments_slash (after : List Char) : segments ('/' :: after) = segments after :=
  segments_append_slash [] after

/-- No segment reaches across a slash. -/
theorem segments_append (h : Boundary before after) :
    segments (before ++ after) = segments before ++ segments after := by
  cases after with
  | nil => simp
  | cons d after =>
    rcases List.eq_nil_or_concat before with rfl | ⟨before, c, rfl⟩
    · simp
    · rcases h c (by simp) d (by simp) with rfl | rfl
      · have hbefore : segments (before ++ ['/']) = segments before := by
          simp [segments_append_slash]
        rw [List.concat_eq_append, List.append_assoc, List.singleton_append,
          segments_append_slash, hbefore]
      · rw [segments_append_slash, segments_slash]

theorem named_append (h : Boundary before after) :
    named (before ++ after) = named before ++ named after := by
  rw [named, segments_append h, List.filter_append, named, named]

/-- Only slashes are in no segment. -/
theorem segments_ne_nil {c : Char} (hc : c ∈ path) (hother : c ≠ '/') : segments path ≠ [] := by
  obtain ⟨piece, hpiece, hmem⟩ := (Text.exists_mem_pieces_iff hother).mpr hc
  refine List.ne_nil_of_mem (a := piece) (List.mem_filter.mpr ⟨hpiece, ?_⟩)
  simpa using List.ne_nil_of_mem hmem

theorem named_eq_segments (h : '{' ∉ path) : named path = segments path := by
  refine List.filter_eq_self.mpr fun segment hsegment => ?_
  have hpiece := (List.mem_filter.mp hsegment).1
  have hplain : '{' ∉ segment := fun hmem =>
    h ((Text.exists_mem_pieces_iff (by decide)).mp ⟨segment, hpiece, hmem⟩)
  simpa using hplain

/-- The name is made of the segments that hold no placeholder, if there are any. -/
theorem nameOfPath_eq_some_iff {name : String} : nameOfPath path = some name ↔
    named path ≠ [] ∧ name = "_".intercalate ((named path).map nameSegment) := by
  have hnamed : (Text.pieces '/' path).filter (fun s => !s.isEmpty && '{' ∉ s) = named path := by
    rw [named, segments, List.filter_filter]
    exact List.filter_congr fun s _ => Bool.and_comm _ _
  rw [nameOfPath, hnamed]
  cases named path with
  | nil => simp
  | cons s segments => simp [eq_comm]

/-! ## Places of an anchor -/

/-- The anchor stands for whole segments of the path between the two parts. -/
structure WholeSegments (path anchor front rest : List Char) : Prop where
  text : path = front ++ anchor ++ rest
  left : Boundary front anchor
  right : Boundary anchor rest

/-- The anchor does not occur further to the left than between the two parts. -/
structure Leftmost (path anchor front rest : List Char) : Prop where
  text : path = front ++ anchor ++ rest
  least : ∀ front' rest', path = front' ++ anchor ++ rest' → front.length ≤ front'.length

theorem leftmost_of_cut? (h : Text.cut? anchor path = some (front, rest)) :
    Leftmost path anchor front rest :=
  ⟨Text.cut?_eq_some h, fun _ _ => Text.length_le_of_cut? h⟩

/-- There is one leftmost place. -/
theorem Leftmost.eq {front' rest' : List Char} (h : Leftmost path anchor front rest)
    (h' : Leftmost path anchor front' rest') : front = front' ∧ rest = rest' := by
  have htext := h.text.symm.trans h'.text
  rw [List.append_assoc, List.append_assoc] at htext
  have hlength := Nat.le_antisymm (h.least _ _ h'.text) (h'.least _ _ h.text)
  obtain ⟨hfront, hbehind⟩ := List.append_inj htext hlength
  exact ⟨hfront, List.append_cancel_left hbehind⟩

theorem cut?_eq_some_iff :
    Text.cut? anchor path = some (front, rest) ↔ Leftmost path anchor front rest := by
  refine ⟨leftmost_of_cut?, fun h => ?_⟩
  have hoccurs : Text.occurs anchor path = true :=
    Text.occurs_iff.mpr ⟨front, rest, h.text.symm⟩
  obtain ⟨⟨front', rest'⟩, hcut⟩ := Option.isSome_iff_exists.mp hoccurs
  obtain ⟨rfl, rfl⟩ := h.eq (leftmost_of_cut? hcut)
  exact hcut

/-- An anchor between slashes stands for segments that lie between those of the two parts. -/
theorem WholeSegments.segments_eq (h : WholeSegments path anchor front rest)
    (hanchor : anchor ≠ []) :
    segments path = segments front ++ segments anchor ++ segments rest := by
  have hright : Boundary (front ++ anchor) rest := by
    intro c hc
    rw [List.getLast?_append_of_ne_nil front hanchor] at hc
    exact h.right c hc
  rw [h.text, segments_append hright, segments_append h.left]

/-- An anchor of slashes stands between slashes anywhere. -/
theorem Leftmost.whole_of_slashes (h : Leftmost path anchor front rest)
    (hslashes : ∀ c ∈ anchor, c = '/') : WholeSegments path anchor front rest :=
  ⟨h.text, fun _ _ d hd => Or.inr (hslashes d (List.mem_of_mem_head? hd)),
    fun c hc _ _ => Or.inl (hslashes c (List.mem_of_getLast? hc))⟩

/-- From the leftmost place to another one, the path goes on in step with the anchor. -/
theorem Leftmost.exists_between {front' rest' : List Char} (h : Leftmost path anchor front rest)
    (htext : path = front' ++ anchor ++ rest') :
    ∃ skipped left, front' = front ++ skipped ∧ rest = left ++ rest' ∧
      skipped ++ anchor = anchor ++ left := by
  have hfront : front <+: path := ⟨anchor ++ rest, by rw [h.text, List.append_assoc]⟩
  have hfront' : front' <+: path := ⟨anchor ++ rest', by rw [htext, List.append_assoc]⟩
  obtain ⟨skipped, rfl⟩ := List.prefix_of_prefix_length_le hfront hfront' (h.least _ _ htext)
  have hbehind : anchor ++ rest = skipped ++ anchor ++ rest' := by
    have hsame := h.text.symm.trans htext
    simp only [List.append_assoc] at hsame ⊢
    exact List.append_cancel_left hsame
  have hanchor : anchor <+: skipped ++ anchor :=
    List.prefix_of_prefix_length_le ⟨rest, rfl⟩ ⟨rest', hbehind.symm⟩ (by simp)
  obtain ⟨left, hleft⟩ := hanchor
  refine ⟨skipped, left, rfl, ?_, hleft.symm⟩
  rw [← hleft, List.append_assoc] at hbehind
  exact List.append_cancel_left hbehind

section Between

variable {skipped left : List Char}

/-- An anchor that is not made of slashes leaves more than slashes behind. -/
theorem exists_other_of_between (hstep : skipped ++ anchor = anchor ++ left)
    (hskipped : skipped ≠ []) {c : Char} (hc : c ∈ anchor) (hother : c ≠ '/') :
    ∃ d ∈ left, d ≠ '/' := by
  by_contra hslashes
  push Not at hslashes
  have hperm : skipped.Perm left := by
    have hall : (skipped ++ anchor).Perm (left ++ anchor) :=
      hstep ▸ List.perm_append_comm
    exact (List.perm_append_right_iff anchor).mp hall
  -- then the anchor would begin with more slashes than it does
  have hbegin := congrArg (fun text => (text.takeWhile (· == '/')).length) hstep
  have hanchor : (anchor.takeWhile (· == '/')).length ≠ anchor.length := by
    intro hlength
    have hall := List.takeWhile_eq_self_iff.mp
      ((List.takeWhile_prefix _).eq_of_length hlength) c hc
    exact hother (by simpa using hall)
  have hfirst : ∀ d ∈ skipped, (d == '/') = true :=
    fun d hd => by simpa using hslashes d (hperm.mem_iff.mp hd)
  rw [List.takeWhile_append_of_pos hfirst, List.takeWhile_append, if_neg hanchor,
    List.length_append] at hbegin
  have := List.length_pos_iff.mpr hskipped
  omega

/-- What an anchor between slashes leaves behind holds one of its segments. -/
theorem named_between_ne_nil (hstep : skipped ++ anchor = anchor ++ left) (hskipped : skipped ≠ [])
    (hboundary : Boundary skipped anchor) (hplain : '{' ∉ anchor) {c : Char} (hc : c ∈ anchor)
    (hother : c ≠ '/') : named left ≠ [] := by
  rcases List.append_eq_append_iff.mp hstep with ⟨common, -, hanchor⟩ | ⟨apart, rfl, rfl⟩
  · -- the two places overlap
    have hleft : '{' ∉ left := fun hmem => hplain (hanchor ▸ List.mem_append_right common hmem)
    obtain ⟨d, hd, hdother⟩ := exists_other_of_between hstep hskipped hc hother
    rw [named_eq_segments hleft]
    exact segments_ne_nil hd hdother
  · have happart : Boundary apart anchor := by
      intro d hd
      have hlast : d ∈ (anchor ++ apart).getLast? := by
        rw [List.getLast?_append_of_ne_nil anchor (List.ne_nil_of_mem (List.mem_of_getLast? hd))]
        exact hd
      exact hboundary d hlast
    rw [named_append happart, named_eq_segments hplain]
    exact List.append_ne_nil_of_right_ne_nil _ (segments_ne_nil hc hother)

end Between

/-- A name of more parts is longer. -/
theorem length_intercalate_lt {more fewer : List String} (hmore : more ≠ []) (hfewer : fewer ≠ []) :
    ("_".intercalate fewer).length < ("_".intercalate (more ++ fewer)).length := by
  rw [String.intercalate_append_of_ne_nil hmore hfewer, String.length_append,
    String.length_append]
  have hbetween : "_".length = 1 := rfl
  omega

/-- A name is made of the segments behind an anchor, which stands for whole segments. -/
def NamedBySegments (path anchor : List Char) (name : String) : Prop :=
  ∃ front rest, WholeSegments path anchor front rest ∧ nameOfPath rest = some name

/-- If the name from the leftmost place is one that is made of the segments behind whole ones, then
the anchor stands for whole segments at that place already. -/
theorem Leftmost.whole_of_named {name : String} (h : Leftmost path anchor front rest)
    (hname : nameOfPath rest = some name) (hplain : '{' ∉ anchor)
    (hnamed : NamedBySegments path anchor name) : WholeSegments path anchor front rest := by
  by_cases hslashes : ∀ c ∈ anchor, c = '/'
  · exact h.whole_of_slashes hslashes
  push Not at hslashes
  obtain ⟨c, hc, hother⟩ := hslashes
  obtain ⟨front', rest', hwhole, hname'⟩ := hnamed
  obtain ⟨skipped, left, rfl, rfl, hstep⟩ := h.exists_between hwhole.text
  by_cases hskipped : skipped = []
  · subst hskipped
    obtain rfl : left = [] := by simpa using hstep
    exact ⟨h.text, by simpa using hwhole.left, hwhole.right⟩
  -- the name from the leftmost place has more parts, so it is another one
  have hfewer : named left ≠ [] := by
    refine named_between_ne_nil hstep hskipped (fun d hd => ?_) hplain hc hother
    exact hwhole.left d (by rwa [List.getLast?_append_of_ne_nil front hskipped])
  have hright : Boundary left rest' := by
    intro d hd
    have hleft := List.ne_nil_of_mem (List.mem_of_getLast? hd)
    refine hwhole.right d ?_
    rwa [← List.getLast?_append_of_ne_nil anchor hleft, ← hstep,
      List.getLast?_append_of_ne_nil skipped (List.ne_nil_of_mem hc)] at hd
  rw [nameOfPath_eq_some_iff] at hname hname'
  rw [named_append hright, List.map_append] at hname
  have hlt : ("_".intercalate ((named rest').map nameSegment)).length <
      ("_".intercalate ((named left).map nameSegment ++
        (named rest').map nameSegment)).length :=
    length_intercalate_lt (by simpa using hfewer) (by simpa using hname'.1)
  rw [← hname.2, ← hname'.2] at hlt
  exact absurd hlt (lt_irrefl _)

end Route

open Route

/-! ## Suggested names -/

/-- The text behind which the name of an operation is looked for: the route that the operations of
the controller share or, without one, the name of the controller. -/
def DeclaredOperation.anchor (op : DeclaredOperation) (config : Config) : String :=
  let shared := (op.routePrefix.map (strip config)).getD ""
  if shared = "" then op.controller else shared

theorem suggestedName?_eq_some_iff (config : Config) (op : DeclaredOperation) {name : String} :
    suggestedName? config op.route op.routePrefix op.controller = some name ↔
      op.anchor config ≠ "" ∧ ∃ front rest,
        Leftmost (op.readRoute config).toList (op.anchor config).toList front rest ∧
          nameOfPath rest = some name := by
  have hsuggested : suggestedName? config op.route op.routePrefix op.controller =
      if op.anchor config = "" then none
      else (Text.cut? (op.anchor config).toList (op.readRoute config).toList).bind
        fun parts => nameOfPath parts.2 := by
    show ite (op.anchor config = "") none _ = _
    congr 1
    split
    next front rest hcut =>
      exact (congrArg (Option.bind · fun parts => nameOfPath parts.2) hcut).symm
    next hcut => exact (congrArg (Option.bind · fun parts => nameOfPath parts.2) hcut).symm
  rw [hsuggested]
  split_ifs with hanchor
  · simp [hanchor]
  · simp [hanchor, Option.bind_eq_some_iff, cut?_eq_some_iff]

/-- A name is suggested if the anchor occurs in the route and segments without placeholder stand
behind the leftmost place where it does.  If the anchor stands for whole segments there, then those
of the route are the ones in front of it, its own and the ones behind it.  Only then is a suggested
name made of the segments behind whole ones, at least if the anchor holds no brace. -/
theorem suggestedName_by_segments_iff (config : Config) (op : DeclaredOperation) :
    let path := (op.readRoute config).toList
    let anchor := (op.anchor config).toList
    (∀ name, suggestedName? config op.route op.routePrefix op.controller = some name ↔
      anchor ≠ [] ∧ ∃ front rest, Leftmost path anchor front rest ∧ named rest ≠ [] ∧
        name = "_".intercalate ((named rest).map nameSegment)) ∧
    ∀ name front rest,
      suggestedName? config op.route op.routePrefix op.controller = some name →
      Leftmost path anchor front rest →
        (WholeSegments path anchor front rest → NamedBySegments path anchor name ∧
          segments path = segments front ++ segments anchor ++ segments rest) ∧
        ('{' ∉ anchor →
          (NamedBySegments path anchor name ↔ WholeSegments path anchor front rest)) := by
  intro path anchor
  have hempty : op.anchor config ≠ "" ↔ anchor ≠ [] := by simp [anchor]
  have hiff : ∀ name, suggestedName? config op.route op.routePrefix op.controller = some name ↔
      anchor ≠ [] ∧ ∃ front rest, Leftmost path anchor front rest ∧
        nameOfPath rest = some name := by
    intro name
    rw [suggestedName?_eq_some_iff, hempty]
  refine ⟨fun name => by simp only [hiff, nameOfPath_eq_some_iff], ?_⟩
  intro name front rest hname hleftmost
  obtain ⟨hanchor, front', rest', hleftmost', hname⟩ := (hiff name).mp hname
  obtain ⟨rfl, rfl⟩ := hleftmost.eq hleftmost'
  refine ⟨fun hwhole => ⟨⟨front, rest, hwhole, hname⟩, hwhole.segments_eq hanchor⟩, ?_⟩
  intro hplain
  exact ⟨hleftmost.whole_of_named hname hplain, fun hwhole => ⟨front, rest, hwhole, hname⟩⟩

/-- An item is put away. -/
def archive : DeclaredOperation where
  controller := "Items"
  route := "shop/Items/\x7bid\x7d/archive"

theorem archive_named : suggestedName? {} archive.route archive.routePrefix archive.controller =
      some "archive" ∧
    NamedBySegments (archive.readRoute {}).toList (archive.anchor {}).toList "archive" := by
  have hname : suggestedName? {} archive.route archive.routePrefix archive.controller =
      some "archive" := by decide +kernel
  have hcut : Text.cut? (archive.anchor {}).toList (archive.readRoute {}).toList =
      some ("shop/".toList, "/\x7bid\x7d/archive".toList) := by decide +kernel
  have hwhole : WholeSegments (archive.readRoute {}).toList (archive.anchor {}).toList
      "shop/".toList "/\x7bid\x7d/archive".toList :=
    ⟨Text.cut?_eq_some hcut, by simp [Boundary], by simp [Boundary]⟩
  exact ⟨hname, (((suggestedName_by_segments_iff {} archive).2 _ _ _ hname
    (leftmost_of_cut? hcut)).1 hwhole).1⟩

/-- The items are listed by a controller whose name is not that of the segment. -/
def listing : DeclaredOperation where
  controller := "Item"
  route := "Items/list"

/-- The rest of a longer segment becomes part of the name, although no segment is the anchor. -/
theorem listing_misnamed : suggestedName? {} listing.route listing.routePrefix listing.controller =
      some "s_list" ∧
    ∀ front rest,
      ¬ WholeSegments (listing.readRoute {}).toList (listing.anchor {}).toList front rest := by
  refine ⟨by decide +kernel, fun front rest hwhole => ?_⟩
  have hsegments := hwhole.segments_eq (by decide +kernel)
  have hmem : "Item".toList ∈ segments (listing.readRoute {}).toList := by
    rw [hsegments]
    have hanchor : segments (listing.anchor {}).toList = ["Item".toList] := by decide +kernel
    simp [hanchor]
  exact absurd hmem (by decide +kernel)

end DataContract
