import DataContract.Proofs.Operation.Tokens

/-!
# Taking placeholders out of a route

Placeholders of a name are taken out of the text of a route, all of them with a slash before them,
or all with a slash behind them, or all alone.  Where the braces of a route are not nested, this
takes whole tokens out and leaves the others as they are.  But the side is chosen once for the whole
route, so that a placeholder without a slash on that side stays.

Results:

* `Route.exists_removed`: on the text, the same is replaced as among the tokens.
* `Route.Removed.mem_iff`: which placeholders of the name stay.
* `Route.dropPlaceholder_spec`: the placeholders that are left by one name.
* `Route.not_uneven_of_count`: none of the name are left when there is but one.
* `Route.stripped_dropAll`, `Route.mem_dropAll_iff`: those that are left by one name after another.
* `Route.not_mem_dropAll_of_count`: a name that the route has at most once is taken out.
-/

namespace DataContract.Route

/-! ## Places of a placeholder -/

/-- In the route a placeholder of the name stands between the two texts. -/
def StandsBetween (route name : String) (before after : List Char) : Prop :=
  route.toList = before ++ (placeholderText name ++ after)

/-- Slashes stand at some of the placeholders of the name only: before some of them and not before
others, or before none, behind some and not behind others. -/
def Uneven (route name : String) : Prop :=
  ((∃ before after, StandsBetween route name before after ∧ before.getLast? = some '/') ∧
    ∃ before after, StandsBetween route name before after ∧ before.getLast? ≠ some '/') ∨
  ((∀ before after, StandsBetween route name before after → before.getLast? ≠ some '/') ∧
    (∃ before after, StandsBetween route name before after ∧ after.head? = some '/') ∧
    ∃ before after, StandsBetween route name before after ∧ after.head? ≠ some '/')

/-- On which side a slash is taken out with a placeholder. -/
inductive Side where
  | before
  | behind
  | neither

/-- The text that is taken out. -/
def Side.text (name : String) : Side → List Char
  | .before => '/' :: placeholderText name
  | .behind => placeholderText name ++ ['/']
  | .neither => placeholderText name

/-- Between the two texts a placeholder is taken out. -/
def Side.Takes : Side → List Char → List Char → Prop
  | .before, front, _ => front.getLast? = some '/'
  | .behind, _, back => back.head? = some '/'
  | .neither, _, _ => True

section Choice

variable {route name : String}

theorem occurs_before : Text.occurs ('/' :: placeholderText name) route.toList = true ↔
    ∃ before after, StandsBetween route name before after ∧ before.getLast? = some '/' := by
  rw [Text.occurs_iff]
  constructor
  · rintro ⟨before, after, h⟩
    exact ⟨before ++ ['/'], after, by rw [StandsBetween, ← h]; simp, by simp⟩
  · rintro ⟨before, after, h, hslash⟩
    obtain ⟨front, rfl⟩ := List.getLast?_eq_some_iff.mp hslash
    exact ⟨front, after, by rw [h]; simp⟩

theorem occurs_behind : Text.occurs (placeholderText name ++ ['/']) route.toList = true ↔
    ∃ before after, StandsBetween route name before after ∧ after.head? = some '/' := by
  rw [Text.occurs_iff]
  constructor
  · rintro ⟨before, after, h⟩
    exact ⟨before, '/' :: after, by rw [StandsBetween, ← h]; simp, rfl⟩
  · rintro ⟨before, after, h, hslash⟩
    obtain ⟨back, rfl⟩ := List.head?_eq_some_iff.mp hslash
    exact ⟨before, back, by rw [h]; simp⟩

/-- One side is chosen for all placeholders of the name, and slashes stand at some of them only when
one of them has none on that side. -/
theorem exists_side (route name : String) : ∃ side : Side,
    (dropPlaceholder route name).toList = Text.replaceAll (side.text name) [] route.toList ∧
      (Uneven route name ↔
        ∃ before after, StandsBetween route name before after ∧ ¬ side.Takes before after) := by
  have hdrop : (dropPlaceholder route name).toList =
      if Text.occurs ('/' :: placeholderText name) route.toList then
        Text.replaceAll ('/' :: placeholderText name) [] route.toList
      else if Text.occurs (placeholderText name ++ ['/']) route.toList then
        Text.replaceAll (placeholderText name ++ ['/']) [] route.toList
      else Text.replaceAll (placeholderText name) [] route.toList := String.toList_ofList
  rw [hdrop, Uneven]
  split_ifs with hbefore hbehind
  · refine ⟨.before, rfl, ?_⟩
    have hsome := occurs_before.mp hbefore
    constructor
    · rintro (⟨-, hother⟩ | ⟨hnone, -⟩)
      · exact hother
      · obtain ⟨before, after, hstands, hslash⟩ := hsome
        exact absurd hslash (hnone before after hstands)
    · exact fun hother => Or.inl ⟨hsome, hother⟩
  · refine ⟨.behind, rfl, ?_⟩
    have hnone : ∀ before after, StandsBetween route name before after →
        before.getLast? ≠ some '/' :=
      fun before after hstands hslash => hbefore (occurs_before.mpr ⟨_, _, hstands, hslash⟩)
    constructor
    · rintro (⟨hsome, -⟩ | ⟨-, -, hother⟩)
      · exact absurd (occurs_before.mpr hsome) hbefore
      · exact hother
    · exact fun hother => Or.inr ⟨hnone, occurs_behind.mp hbehind, hother⟩
  · refine ⟨.neither, rfl, ?_⟩
    constructor
    · rintro (⟨hsome, -⟩ | ⟨-, hsome, -⟩)
      · exact absurd (occurs_before.mpr hsome) hbefore
      · exact absurd (occurs_behind.mpr hsome) hbehind
    · rintro ⟨before, after, -, hnot⟩
      exact absurd trivial hnot

end Choice

/-! ## Removal among tokens -/

/-- From left to right, the pattern is taken out wherever the tokens begin with it. -/
inductive Removed (pattern : List Token) : List Token → List Token → Prop where
  | nil : Removed pattern [] []
  | out {tokens rest : List Token} : Removed pattern tokens rest →
      Removed pattern (pattern ++ tokens) rest
  | keep {t : Token} {tokens rest : List Token} : ¬ pattern <+: t :: tokens →
      Removed pattern tokens rest → Removed pattern (t :: tokens) (t :: rest)

/-- A slash as a token. -/
def slash : Token := .fixed '/' (by decide)

/-- The tokens that are taken out. -/
def Side.pattern (side : Side) {name : String} (hname : Bare name) : List Token :=
  match side with
  | .before => [slash, .slot name hname]
  | .behind => [.slot name hname, slash]
  | .neither => [.slot name hname]

section Removal

variable {side : Side} {name : String} {hname : Bare name} {tokens rest : List Token} {tail : Tail}

theorem tokensText_pattern (hname : Bare name) :
    tokensText (side.pattern hname) = side.text name := by
  cases side <;> simp [Side.pattern, Side.text, Token.text, slash]

theorem tokenNames_pattern : tokenNames (side.pattern hname) = [name] := by
  cases side <;> rfl

/-- Within the text of a placeholder, behind its first character, nothing is taken out. -/
theorem not_begins_within {part more : List Char} (hpart : '\x7b' ∉ part) :
    ¬ side.text name <+: part ++ '\x7d' :: more := by
  rintro ⟨behind, h⟩
  obtain ⟨lead, inner, hlead, htext⟩ : ∃ lead inner, '\x7d' ∉ lead ∧
      side.text name = lead ++ '\x7b' :: inner := by
    cases side with
    | before => exact ⟨['/'], _, by decide, by rw [Side.text, placeholderText_eq]; rfl⟩
    | behind => exact ⟨[], _, by simp, by rw [Side.text, placeholderText_eq]; rfl⟩
    | neither => exact ⟨[], _, by simp, by rw [Side.text, placeholderText_eq]; rfl⟩
  have hclosed : '\x7b' ∉ part ++ ['\x7d'] := by simpa using hpart
  have hsplit : (part ++ ['\x7d']) ++ more = lead ++ '\x7b' :: (inner ++ behind) := by
    rw [htext] at h
    simpa using h.symm
  obtain ⟨between, hbetween, -⟩ := Text.exists_of_append_eq hclosed hsplit
  exact hlead (by rw [hbetween]; simp)

/-- A token that does not begin the pattern is kept whole. -/
theorem replaceAll_token {t : Token} (h : ¬ side.pattern hname <+: t :: tokens) :
    Text.replaceAll (side.text name) [] (t.text ++ (tokensText tokens ++ tail.text)) =
      t.text ++ Text.replaceAll (side.text name) [] (tokensText tokens ++ tail.text) := by
  refine Text.replaceAll_of_not_begins fun before c after hpart => ?_
  cases before with
  | nil =>
    rw [List.nil_append] at hpart
    rw [← List.cons_append, ← hpart, ← List.append_assoc, ← tokensText_cons,
      ← tokensText_pattern hname, begins_iff]
    exact h
  | cons b before =>
    cases t with
    | fixed d hd => exact absurd (congrArg List.length hpart) (by simp [Token.text])
    | slot other hother =>
      rw [Token.text, placeholderText_eq, List.cons_append] at hpart
      obtain ⟨part, hunopened, hrest⟩ : ∃ part, '\x7b' ∉ part ∧ c :: after = part ++ ['\x7d'] := by
        rcases List.append_eq_append_iff.mp (List.cons.inj hpart).2 with
          ⟨overlap, -, hclose⟩ | ⟨part, hinner, hrest⟩
        · cases overlap with
          | nil => exact ⟨[], by simp, hclose.symm⟩
          | cons d overlap => exact absurd (congrArg List.length hclose) (by simp)
        · exact ⟨part, fun hmem => hother.1 (by rw [hinner]; simp [hmem]), hrest⟩
      rw [← List.cons_append, hrest, List.append_assoc]
      exact not_begins_within hunopened

/-- On the text of tokens the same is taken out as among the tokens. -/
theorem exists_removed (side : Side) (hname : Bare name) (tail : Tail) :
    ∀ tokens : List Token, ∃ rest, Removed (side.pattern hname) tokens rest ∧
      Text.replaceAll (side.text name) [] (tokensText tokens ++ tail.text) =
        tokensText rest ++ tail.text := by
  intro tokens
  have hclosing : '\x7d' ∈ side.text name := by
    cases side <;> simp [Side.text, placeholderText_eq]
  induction hlength : tokens.length using Nat.strongRecOn generalizing tokens with
  | ind length ih =>
    by_cases hbegins : side.pattern hname <+: tokens
    · obtain ⟨more, rfl⟩ := hbegins
      have hshorter : more.length < length := by
        rw [← hlength]
        cases side <;> simp only [Side.pattern, List.length_append, List.length_cons] <;> omega
      obtain ⟨rest, hremoved, htext⟩ := ih _ hshorter more rfl
      refine ⟨rest, .out hremoved, ?_⟩
      rw [tokensText_append, tokensText_pattern, List.append_assoc,
        Text.replaceAll_append (List.ne_nil_of_mem hclosing), htext, List.nil_append]
    · cases tokens with
      | nil => exact ⟨[], .nil, Text.replaceAll_of_not_mem hclosing tail.unclosed⟩
      | cons t tokens =>
        obtain ⟨rest, hremoved, htext⟩ := ih tokens.length (by simp [← hlength]) tokens rfl
        refine ⟨t :: rest, .keep hbegins hremoved, ?_⟩
        rw [tokensText_cons, List.append_assoc, replaceAll_token hbegins, htext, tokensText_cons,
          List.append_assoc]

/-! ## What stays -/

/-- Fixed text other than slashes is not taken out. -/
theorem not_mem_pattern {c : Char} {hc : c ≠ '\x7b'} (hslash : c ≠ '/') :
    .fixed c hc ∉ side.pattern hname := by
  cases side <;> simp [Side.pattern, slash, hslash]

theorem Removed.mem_fixed (h : Removed (side.pattern hname) tokens rest) {c : Char}
    {hc : c ≠ '\x7b'} (hslash : c ≠ '/') : .fixed c hc ∈ rest ↔ .fixed c hc ∈ tokens := by
  induction h with
  | nil => rfl
  | out _ ih =>
    rw [List.mem_append, or_iff_right (not_mem_pattern hslash)]
    exact ih
  | keep _ _ ih =>
    rw [List.mem_cons, List.mem_cons]
    exact or_congr_right ih

theorem Removed.sublist {pattern : List Token} (h : Removed pattern tokens rest) :
    rest.Sublist tokens := by
  induction h with
  | nil => exact .slnil
  | out _ ih => exact ih.trans (List.sublist_append_right _ _)
  | keep _ _ ih => exact ih.cons_cons _

/-- The placeholders of other names stay as they are. -/
theorem Removed.filter_names (h : Removed (side.pattern hname) tokens rest) :
    (tokenNames rest).filter (· ∉ [name]) = (tokenNames tokens).filter (· ∉ [name]) := by
  induction h with
  | nil => rfl
  | out _ ih => rw [tokenNames_append, List.filter_append, tokenNames_pattern, ih]; simp
  | @keep t tokens rest _ _ ih =>
    rw [tokenNames_cons t rest, tokenNames_cons t tokens, List.filter_append, List.filter_append,
      ih]

theorem getLast?_placeholderText : (placeholderText name).getLast? = some '\x7d' := by
  rw [placeholderText_eq, ← List.cons_append, List.getLast?_concat]

/-- Only a slash has a text that ends with a slash. -/
theorem eq_slash_of_getLast? {t : Token} {front : List Char}
    (h : (front ++ t.text).getLast? = some '/') : t = slash := by
  cases t with
  | fixed c hc =>
    rw [Token.text, List.getLast?_concat] at h
    cases h
    rfl
  | slot other hother =>
    rw [Token.text, List.getLast?_append, getLast?_placeholderText, Option.some_or] at h
    exact absurd h (by decide)

/-- Only behind a slash as a token the text begins with a slash. -/
theorem exists_slash_of_head? (h : (tokensText tokens ++ tail.text).head? = some '/') :
    ∃ more, tokens = slash :: more := by
  cases tokens with
  | nil => exact absurd (tail.head _ h) (by decide)
  | cons t more =>
    cases t with
    | fixed c hc =>
      obtain rfl : c = '/' := Option.some.inj h
      exact ⟨more, rfl⟩
    | slot other hother =>
      rw [tokensText_cons, Token.text, placeholderText_eq] at h
      exact absurd (Option.some.inj h) (by decide)

/-- Among the tokens, which stand behind the text, there is a placeholder of the name that is not
taken out. -/
def Stays (side : Side) (hname : Bare name) (tail : Tail) (front : List Char)
    (tokens : List Token) : Prop :=
  ∃ left right, tokens = left ++ .slot name hname :: right ∧
    ¬ side.Takes (front ++ tokensText left) (tokensText right ++ tail.text)

theorem stays_cons {t : Token} {front : List Char} :
    Stays side hname tail front (t :: tokens) ↔
      (t = .slot name hname ∧ ¬ side.Takes front (tokensText tokens ++ tail.text)) ∨
        Stays side hname tail (front ++ t.text) tokens := by
  constructor
  · rintro ⟨left, right, hsplit, hnot⟩
    cases left with
    | nil =>
      obtain ⟨rfl, rfl⟩ := List.cons.inj hsplit
      rw [tokensText_nil, List.append_nil] at hnot
      exact Or.inl ⟨rfl, hnot⟩
    | cons s left =>
      obtain ⟨rfl, rfl⟩ := List.cons.inj hsplit
      rw [tokensText_cons, ← List.append_assoc] at hnot
      exact Or.inr ⟨left, right, rfl, hnot⟩
  · rintro (⟨rfl, hnot⟩ | ⟨left, right, rfl, hnot⟩)
    · exact ⟨[], tokens, rfl, by rwa [tokensText_nil, List.append_nil]⟩
    · exact ⟨t :: left, right, rfl, by rwa [tokensText_cons, ← List.append_assoc]⟩

/-- Placeholders of the name stay where they are not taken out.  The text before the tokens does not
end with the beginning of what would be taken out with the first of them. -/
theorem Removed.mem_iff (h : Removed (side.pattern hname) tokens rest) (tail : Tail) :
    ∀ front : List Char,
      (side = .before → front.getLast? = some '/' → tokens.head? ≠ some (.slot name hname)) →
      (name ∈ tokenNames rest ↔ Stays side hname tail front tokens) := by
  induction h with
  | nil => intro front _; simp [tokenNames, Stays]
  | @out tokens rest _ ih =>
    intro front _
    cases side with
    | before =>
      have hlast : (front ++ ['/'] ++ placeholderText name).getLast? ≠ some '/' := by
        rw [List.getLast?_append, getLast?_placeholderText]
        simp
      rw [ih (front ++ ['/'] ++ placeholderText name) fun _ hslash => absurd hslash hlast]
      simp [Side.pattern, stays_cons, slash, Token.text, Side.Takes]
    | behind =>
      rw [ih (front ++ placeholderText name ++ ['/']) (by simp)]
      simp [Side.pattern, stays_cons, slash, Token.text, Side.Takes]
    | neither =>
      rw [ih (front ++ placeholderText name) (by simp)]
      simp [Side.pattern, stays_cons, Token.text, Side.Takes]
  | @keep t tokens rest hbegins _ ih =>
    intro front hfront
    by_cases ht : t = .slot name hname
    · have hnot : ¬ side.Takes front (tokensText tokens ++ tail.text) := by
        cases side with
        | before => exact fun htakes => hfront rfl htakes (by rw [ht]; rfl)
        | behind =>
          intro htakes
          obtain ⟨more, rfl⟩ := exists_slash_of_head? htakes
          exact hbegins ⟨more, by rw [ht]; rfl⟩
        | neither => exact absurd ⟨tokens, by rw [ht]; rfl⟩ hbegins
      refine iff_of_true (mem_tokenNames.mpr ⟨hname, by rw [ht]; simp⟩) ?_
      exact stays_cons.mpr (Or.inl ⟨ht, hnot⟩)
    · have hfirst : name ∉ tokenNames [t] := by
        rw [mem_tokenNames]
        rintro ⟨h, hmem⟩
        exact ht (List.mem_singleton.mp hmem).symm
      rw [tokenNames_cons, List.mem_append, stays_cons, or_iff_right hfirst,
        or_iff_right fun h => ht h.1]
      refine ih (front ++ t.text) fun hside hlast hhead => hbegins ?_
      obtain ⟨more, rfl⟩ := List.head?_eq_some_iff.mp hhead
      rw [hside, eq_slash_of_getLast? hlast]
      exact ⟨more, rfl⟩

end Removal

/-! ## What is left of a route -/

section Routes

variable {route name : String} {tokens : List Token} {tail : Tail}

/-- The names of the placeholders of a route have no opening brace. -/
def Plain (route : String) : Prop :=
  ∀ name ∈ (UrlPattern.parse route).placeholders, '\x7b' ∉ name.toList

instance (route : String) : Decidable (Plain route) :=
  inferInstanceAs (Decidable (∀ name ∈ (UrlPattern.parse route).placeholders, '\x7b' ∉ name.toList))

/-- From the route placeholders of some names have been taken out, and those of other names stand as
they were. -/
structure Stripped (names : List String) (route left : String) : Prop where
  sublist : (UrlPattern.parse left).placeholders.Sublist (UrlPattern.parse route).placeholders
  others : (UrlPattern.parse left).placeholders.filter (· ∉ names) =
    (UrlPattern.parse route).placeholders.filter (· ∉ names)

section Stripped

variable {left last : String} {names more : List String}

theorem Stripped.plain (h : Stripped names route left) (hroute : Plain route) : Plain left :=
  fun n hn => hroute n (h.sublist.subset hn)

theorem Stripped.mem_iff (h : Stripped names route left) (hname : name ∉ names) :
    name ∈ (UrlPattern.parse left).placeholders ↔ name ∈ (UrlPattern.parse route).placeholders := by
  have hboth := congrArg (name ∈ ·) h.others
  simpa [List.mem_filter, hname] using hboth

theorem Stripped.trans (h : Stripped names route left) (hmore : Stripped more left last) :
    Stripped (names ++ more) route last := by
  have hsplit : ∀ l : List String,
      l.filter (· ∉ names ++ more) = (l.filter (· ∉ names)).filter (· ∉ more) := by
    intro l
    rw [List.filter_filter]
    refine List.filter_congr fun n _ => ?_
    simp [Bool.and_comm]
  refine ⟨hmore.sublist.trans h.sublist, ?_⟩
  rw [hsplit, hsplit, List.filter_comm, hmore.others, List.filter_comm, h.others]

end Stripped

/-- What is left of a route can be laid out with the tokens that are left. -/
theorem exists_left (hlaid : LaidOut route.toList tokens tail) (hname : Bare name) :
    ∃ (side : Side) (rest : List Token), Removed (side.pattern hname) tokens rest ∧
      LaidOut (dropPlaceholder route name).toList rest tail ∧
      (Uneven route name ↔
        ∃ before after, StandsBetween route name before after ∧ ¬ side.Takes before after) := by
  obtain ⟨side, hdrop, huneven⟩ := exists_side route name
  obtain ⟨rest, hremoved, htext⟩ := exists_removed side hname tail tokens
  refine ⟨side, rest, hremoved, ?_, huneven⟩
  rw [hdrop, hlaid, htext, LaidOut]

/-- To take out the placeholders of one name leaves those of other names.  Of its own, some are left
when slashes stand at some of them only. -/
theorem dropPlaceholder_spec (hroute : Plain route) (hname : Bare name) :
    Stripped [name] route (dropPlaceholder route name) ∧
      (name ∈ (UrlPattern.parse (dropPlaceholder route name)).placeholders ↔
        Uneven route name) := by
  obtain ⟨tokens, tail, hlaid⟩ := exists_layout hroute
  obtain ⟨side, rest, hremoved, hleft, huneven⟩ := exists_left hlaid hname
  have hbefore := placeholders_of_layout hlaid
  have hbehind := placeholders_of_layout hleft
  refine ⟨⟨?_, ?_⟩, ?_⟩
  · rw [hbefore, hbehind]
    exact hremoved.sublist.filterMap _
  · rw [hbefore, hbehind]
    exact hremoved.filter_names
  · rw [hbehind, huneven, hremoved.mem_iff tail [] (by simp)]
    constructor
    · rintro ⟨left, right, hsplit, hnot⟩
      refine ⟨tokensText left, tokensText right ++ tail.text, ?_, hnot⟩
      rw [StandsBetween, hlaid]
      exact (split_iff hname).mpr ⟨left, right, hsplit, rfl, rfl⟩
    · rintro ⟨before, after, hstands, hnot⟩
      rw [StandsBetween, hlaid] at hstands
      obtain ⟨left, right, hsplit, rfl, rfl⟩ := (split_iff hname).mp hstands
      exact ⟨left, right, hsplit, hnot⟩

/-- A placeholder that a route has once stands in one place. -/
theorem StandsBetween.unique {before after before' after' : List Char} (hroute : Plain route)
    (hname : Bare name) (honce : (UrlPattern.parse route).placeholders.count name ≤ 1)
    (h : StandsBetween route name before after) (h' : StandsBetween route name before' after') :
    before = before' ∧ after = after' := by
  obtain ⟨tokens, tail, hlaid⟩ := exists_layout hroute
  rw [placeholders_of_layout hlaid] at honce
  rw [StandsBetween, hlaid] at h h'
  obtain ⟨left, right, hsplit, rfl, rfl⟩ := (split_iff hname).mp h
  obtain ⟨left', right', hsplit', rfl, rfl⟩ := (split_iff hname).mp h'
  obtain ⟨rfl, rfl⟩ := split_unique honce hsplit hsplit'
  exact ⟨rfl, rfl⟩

/-- Slashes cannot stand at some placeholders only when there is but one. -/
theorem not_uneven_of_count (hroute : Plain route) (hname : Bare name)
    (honce : (UrlPattern.parse route).placeholders.count name ≤ 1) : ¬ Uneven route name := by
  rintro (⟨⟨before, after, h, hslash⟩, before', after', h', hnone⟩ |
    ⟨-, ⟨before, after, h, hslash⟩, before', after', h', hnone⟩)
  · rw [(h.unique hroute hname honce h').1] at hslash
    exact hnone hslash
  · rw [(h.unique hroute hname honce h').2] at hslash
    exact hnone hslash

/-- The route without the placeholders of each name in turn. -/
def dropAll (route : String) (names : List String) : String := names.foldl dropPlaceholder route

/-- To take out the placeholders of some names leaves those of other names. -/
theorem stripped_dropAll : ∀ {names : List String} {route : String}, Plain route →
    (∀ name ∈ names, Bare name) → Stripped names route (dropAll route names) := by
  intro names
  induction names with
  | nil => intro route _ _; exact ⟨.refl _, rfl⟩
  | cons name names ih =>
    intro route hroute hnames
    have hfirst := (dropPlaceholder_spec hroute (hnames name (by simp))).1
    have hrest := ih (hfirst.plain hroute) fun n hn => hnames n (List.mem_cons_of_mem name hn)
    exact hfirst.trans hrest

/-- Placeholders of a name are left when slashes stand at some of them only by the time it is the
turn of that name for the last time. -/
theorem mem_dropAll_iff {before after : List String} (hroute : Plain route)
    (hnames : ∀ n ∈ before ++ name :: after, Bare n) (hlast : name ∉ after) :
    name ∈ (UrlPattern.parse (dropAll route (before ++ name :: after))).placeholders ↔
      Uneven (dropAll route before) name := by
  have hturn : Plain (dropAll route before) :=
    (stripped_dropAll hroute fun n hn => hnames n (by simp [hn])).plain hroute
  obtain ⟨hstripped, hleft⟩ := dropPlaceholder_spec hturn (hnames name (by simp))
  have hturns : dropAll route (before ++ name :: after) =
      dropAll (dropPlaceholder (dropAll route before) name) after := by
    simp only [dropAll, List.foldl_append, List.foldl_cons]
  have hafter : Stripped after (dropPlaceholder (dropAll route before) name)
      (dropAll route (before ++ name :: after)) := by
    rw [hturns]
    exact stripped_dropAll (hstripped.plain hturn) fun n hn => hnames n (by simp [hn])
  rw [hafter.mem_iff hlast, hleft]

/-- A name that the route has at most once is taken out. -/
theorem not_mem_dropAll_of_count {names : List String} (hroute : Plain route)
    (hnames : ∀ n ∈ names, Bare n) (hname : name ∈ names)
    (honce : (UrlPattern.parse route).placeholders.count name ≤ 1) :
    name ∉ (UrlPattern.parse (dropAll route names)).placeholders := by
  -- the turn that counts is the last one
  obtain ⟨after, before, hrev, hlast⟩ :=
    List.eq_append_cons_of_mem (List.mem_reverse.mpr hname)
  have hsplit : names = before.reverse ++ name :: after.reverse := by
    rw [← List.reverse_reverse names, hrev]
    simp
  rw [hsplit] at hnames ⊢
  have hturn := stripped_dropAll hroute
    fun n (hn : n ∈ before.reverse) => hnames n (List.mem_append_left _ hn)
  rw [mem_dropAll_iff hroute hnames (by simpa using hlast)]
  exact not_uneven_of_count (hturn.plain hroute) (hnames name (by simp))
    ((hturn.sublist.count_le name).trans honce)

end Routes

end DataContract.Route
