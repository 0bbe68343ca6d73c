import DataContract.Operation.Route
import DataContract.Proofs.Operation.Stretches

/-!
# The tokens of a route

A route in which no placeholder's name has an opening brace is a sequence of tokens, each one a
character of fixed text or a whole placeholder.  At its end there may be text behind an opening
brace that is never closed.  The text of the tokens can be read in one way only, so that whatever is
found in the text is found among the tokens.

Results:

* `Route.exists_layout`: such a route has tokens.
* `Route.placeholders_of_layout`: its placeholders are those among the tokens.
* `Route.begins_iff`: a text of tokens begins with another one when its tokens do.
* `Route.split_iff`: a placeholder stands in the text where it stands among the tokens.
* `Route.split_unique`: one that is there once stands in one place.
-/

namespace DataContract.Route

/-! ## Tokens -/

/-- A name without braces. -/
def Bare (name : String) : Prop := '\x7b' ∉ name.toList ∧ '\x7d' ∉ name.toList

instance (name : String) : Decidable (Bare name) := inferInstanceAs (Decidable (_ ∧ _))

/-- The text of a placeholder. -/
def placeholderText (name : String) : List Char :=
  (UrlPattern.renderPiece (.placeholder name)).toList

theorem placeholderText_eq (name : String) :
    placeholderText name = '\x7b' :: (name.toList ++ ['\x7d']) := by
  simp [placeholderText, UrlPattern.renderPiece]

/-- A token of a route. -/
inductive Token where
  /-- A character of fixed text. -/
  | fixed (c : Char) (h : c ≠ '\x7b')
  /-- A placeholder. -/
  | slot (name : String) (h : Bare name)

/-- The text of a token. -/
def Token.text : Token → List Char
  | .fixed c _ => [c]
  | .slot name _ => placeholderText name

/-- The name of a placeholder. -/
def Token.name? : Token → Option String
  | .fixed _ _ => none
  | .slot name _ => some name

/-- The text of tokens in a row. -/
def tokensText (tokens : List Token) : List Char := tokens.flatMap Token.text

/-- The names of the placeholders among the tokens. -/
def tokenNames (tokens : List Token) : List String := tokens.filterMap Token.name?

/-- What may stand behind the tokens: nothing, or an opening brace that is not closed. -/
structure Tail where
  text : List Char
  head : ∀ c ∈ text.head?, c = '\x7b'
  unclosed : '\x7d' ∉ text

/-- The text is that of the tokens and of what stands behind them. -/
def LaidOut (text : List Char) (tokens : List Token) (tail : Tail) : Prop :=
  text = tokensText tokens ++ tail.text

section Tokens

variable {tokens more : List Token} {tail : Tail} {name : String} {text rest : List Char} {c : Char}

@[simp] theorem tokensText_nil : tokensText [] = [] := rfl

@[simp] theorem tokensText_cons (t : Token) :
    tokensText (t :: tokens) = t.text ++ tokensText tokens := rfl

@[simp] theorem tokensText_append :
    tokensText (tokens ++ more) = tokensText tokens ++ tokensText more := List.flatMap_append

@[simp] theorem tokenNames_append :
    tokenNames (tokens ++ more) = tokenNames tokens ++ tokenNames more := List.filterMap_append

theorem tokenNames_cons (t : Token) (tokens : List Token) :
    tokenNames (t :: tokens) = tokenNames [t] ++ tokenNames tokens := by
  rw [← List.singleton_append, tokenNames_append]

theorem mem_tokenNames : name ∈ tokenNames tokens ↔ ∃ h, Token.slot name h ∈ tokens := by
  rw [tokenNames, List.mem_filterMap]
  constructor
  · rintro ⟨t, ht, hname⟩
    cases t with
    | fixed c h => cases hname
    | slot other h =>
      cases hname
      exact ⟨h, ht⟩
  · rintro ⟨h, ht⟩
    exact ⟨_, ht, rfl⟩

/-! ## Reading tokens -/

/-- A token as a piece of its own. -/
def Token.piece : Token → UrlPiece
  | .fixed c _ => .fixed (String.singleton c)
  | .slot name _ => .placeholder name

section Reading

variable {β : Type} {g : UrlPiece → List β}
  (hg : ∀ a b : List Char, g (.fixed (String.ofList (a ++ b))) =
    g (.fixed (String.ofList a)) ++ g (.fixed (String.ofList b)))

include hg

theorem read_fixedPieces (text : List Char) :
    (UrlPattern.fixedPieces text).flatMap g = g (.fixed (String.ofList text)) := by
  cases text with
  | nil =>
    have hempty := congrArg List.length (hg [] [])
    rw [List.append_nil, List.length_append] at hempty
    rw [List.eq_nil_of_length_eq_zero (l := g (.fixed (String.ofList []))) (by omega)]
    rfl
  | cons c text => simp [UrlPattern.fixedPieces]

/-- Tokens are read one after the other, and then no placeholder is open. -/
theorem read_tokens (tokens : List Token) : ∀ (pieces : List UrlPiece) (text : List Char),
    ∃ pieces' text', (tokensText tokens).foldl UrlPattern.Reading.step ⟨pieces, text, none⟩ =
        ⟨pieces', text', none⟩ ∧
      pieces'.flatMap g ++ g (.fixed (String.ofList text')) =
        pieces.flatMap g ++ g (.fixed (String.ofList text)) ++
          tokens.flatMap fun t => g t.piece := by
  induction tokens with
  | nil => intro pieces text; exact ⟨pieces, text, rfl, by simp⟩
  | cons t tokens ih =>
    intro pieces text
    cases t with
    | fixed c h =>
      obtain ⟨pieces', text', hread, heq⟩ := ih pieces (text ++ [c])
      refine ⟨pieces', text', ?_, ?_⟩
      · have hc : '\x7b' ∉ [c] := by simpa using h.symm
        rw [tokensText_cons, Token.text, List.foldl_append, UrlPattern.read_fixed hc, hread]
      · rw [heq, hg]
        simp [Token.piece]
    | slot name h =>
      obtain ⟨pieces', text', hread, heq⟩ :=
        ih (pieces ++ UrlPattern.fixedPieces text ++ [.placeholder name]) []
      refine ⟨pieces', text', ?_, ?_⟩
      · rw [tokensText_cons, Token.text, placeholderText_eq, List.foldl_append,
          UrlPattern.read_placeholder h.2, String.ofList_toList, hread]
      · have hempty : g (.fixed (String.ofList [])) = [] := (read_fixedPieces hg []).symm
        rw [heq, List.flatMap_append, List.flatMap_append, read_fixedPieces hg, hempty]
        simp [Token.piece]

theorem read_lengthen (pieces : List UrlPiece) (text : List Char) :
    (UrlPattern.lengthen pieces text).flatMap g =
      pieces.flatMap g ++ g (.fixed (String.ofList text)) := by
  rcases List.eq_nil_or_concat pieces with rfl | ⟨front, last, rfl⟩
  · exact read_fixedPieces hg text
  · rw [List.concat_eq_append, UrlPattern.lengthen, List.getLast?_concat]
    cases last with
    | fixed previous =>
      have hlonger := hg previous.toList text
      rw [String.ofList_append, String.ofList_toList] at hlonger
      simp [hlonger]
    | placeholder name => simp [read_fixedPieces hg]

/-- What is read off the pieces of a route, and off fixed text character by character, is read off
its tokens and the text behind them. -/
theorem flatMap_pieces_of_layout {route : String} (h : LaidOut route.toList tokens tail) :
    (UrlPattern.parse route).pieces.flatMap g =
      (tokens.flatMap fun t => g t.piece) ++ g (.fixed (String.ofList tail.text)) := by
  have hempty : g (.fixed (String.ofList [])) = [] := (read_fixedPieces hg []).symm
  obtain ⟨pieces, text, hread, heq⟩ := read_tokens hg tokens [] []
  rw [hempty, List.flatMap_nil, List.nil_append, List.nil_append] at heq
  rw [UrlPattern.parse, h, List.foldl_append, hread]
  obtain ⟨tailText, hhead, hunclosed⟩ := tail
  cases tailText with
  | nil =>
    rw [List.foldl_nil, UrlPattern.finish_fixed, List.flatMap_append, read_fixedPieces hg, heq,
      hempty, List.append_nil]
  | cons c tailText =>
    obtain rfl : c = '\x7b' := hhead c (by simp)
    have hinside : '\x7d' ∉ tailText := fun hmem => hunclosed (List.mem_cons_of_mem _ hmem)
    rw [List.foldl_cons, UrlPattern.read_open, UrlPattern.read_inside hinside, List.nil_append,
      UrlPattern.finish_inside, read_lengthen hg, List.flatMap_append, read_fixedPieces hg, heq]

end Reading

/-- The placeholders of a route are those among its tokens. -/
theorem placeholders_of_layout {route : String} (h : LaidOut route.toList tokens tail) :
    (UrlPattern.parse route).placeholders = tokenNames tokens := by
  have hread := flatMap_pieces_of_layout
    (g := fun piece => (UrlPattern.placeholderName? piece).toList) (fun _ _ => rfl) h
  have hname : ∀ t : Token, UrlPattern.placeholderName? t.piece = t.name? := by
    intro t
    cases t <;> rfl
  simp only [hname] at hread
  rw [UrlPattern.placeholders, tokenNames, List.filterMap_eq_flatMap_toList,
    List.filterMap_eq_flatMap_toList, hread]
  exact List.append_nil _

/-- A text without an opening brace can be laid out character by character. -/
theorem exists_tokens_of_fixed (h : '\x7b' ∉ text) : ∃ tokens, tokensText tokens = text := by
  induction text with
  | nil => exact ⟨[], rfl⟩
  | cons c text ih =>
    rw [List.mem_cons, not_or] at h
    obtain ⟨tokens, htext⟩ := ih h.2
    exact ⟨.fixed c (Ne.symm h.1) :: tokens, by rw [tokensText_cons, htext]; rfl⟩

/-- A route of which no placeholder's name has an opening brace has tokens. -/
theorem exists_layout {route : String}
    (h : ∀ name ∈ (UrlPattern.parse route).placeholders, '\x7b' ∉ name.toList) :
    ∃ tokens tail, LaidOut route.toList tokens tail := by
  obtain ⟨stretches, remainder, hdivided⟩ := UrlPattern.exists_divided route.toList
  have hnames : ∀ s ∈ stretches, '\x7b' ∉ s.name := by
    rw [UrlPattern.placeholders_of_divided hdivided] at h
    intro s hs
    simpa using h _ (List.mem_map_of_mem hs)
  rw [hdivided]
  clear h hdivided
  induction stretches with
  | nil =>
    rcases remainder.unopened_or_opened with hopen | ⟨before, behind, hbefore, hbehind, htext⟩
    · obtain ⟨tokens, htokens⟩ := exists_tokens_of_fixed hopen
      exact ⟨tokens, ⟨[], by simp, by simp⟩, by simp [LaidOut, htokens]⟩
    · obtain ⟨tokens, htokens⟩ := exists_tokens_of_fixed hbefore
      exact ⟨tokens, ⟨'\x7b' :: behind, by simp, by simpa using hbehind⟩,
        by simp [LaidOut, htokens, htext]⟩
  | cons s stretches ih =>
    obtain ⟨rest, tail, hrest⟩ := ih fun s hs => hnames s (List.mem_cons_of_mem _ hs)
    obtain ⟨tokens, htokens⟩ := exists_tokens_of_fixed s.unopened
    have hbare : Bare (String.ofList s.name) :=
      ⟨by simpa using hnames s (by simp), by simpa using s.unclosed⟩
    refine ⟨tokens ++ .slot _ hbare :: rest, tail, ?_⟩
    rw [LaidOut, tokensText_append, tokensText_cons, List.append_assoc, List.append_assoc, ← hrest,
      htokens]
    simp [UrlPattern.Stretch.text, Token.text, placeholderText_eq]

/-! ## Finding tokens -/

/-- Placeholders with one text have one name. -/
theorem placeholderText_append_inj {other : String} {rest' : List Char} (hname : Bare name)
    (hother : Bare other) (h : placeholderText name ++ rest = placeholderText other ++ rest') :
    name = other ∧ rest = rest' := by
  rw [placeholderText_eq, placeholderText_eq, List.cons_append, List.cons_append,
    List.append_assoc, List.append_assoc] at h
  have hkind : ∀ {n : String}, Bare n → ∀ c ∈ n.toList, (c != '\x7d') = true := by
    intro n hn c hc
    rw [bne_iff_ne]
    rintro rfl
    exact hn.2 hc
  obtain ⟨hsame, hrest⟩ := Text.append_inj_of_kind (hkind hname) (hkind hother)
    (by simp) (by simp) (List.cons.inj h).2
  exact ⟨String.toList_inj.mp hsame, (List.cons.inj hrest).2⟩

theorem mem_placeholderText : '\x7d' ∈ placeholderText name := by
  simp [placeholderText_eq]

/-- Behind the tokens no other token begins. -/
theorem not_begins_tail (t : Token) : ¬ t.text ++ rest <+: tail.text := by
  rintro ⟨more, hmore⟩
  cases t with
  | fixed c h =>
    have hhead := tail.head c
    rw [← hmore] at hhead
    exact h (hhead rfl)
  | slot name h =>
    refine tail.unclosed ?_
    rw [← hmore]
    exact List.mem_append_left _ (List.mem_append_left _ mem_placeholderText)

/-- A text of tokens begins with the text of a pattern when its tokens begin with the pattern. -/
theorem begins_iff : ∀ {pattern tokens : List Token},
    tokensText pattern <+: tokensText tokens ++ tail.text ↔ pattern <+: tokens := by
  intro pattern
  induction pattern with
  | nil => intro tokens; simp
  | cons p pattern ih =>
    intro tokens
    constructor
    · intro h
      cases tokens with
      | nil => exact absurd h (not_begins_tail p)
      | cons t tokens =>
        obtain ⟨more, hmore⟩ := h
        rw [tokensText_cons, tokensText_cons, List.append_assoc, List.append_assoc] at hmore
        have hsame : p = t ∧ tokensText pattern ++ more = tokensText tokens ++ tail.text := by
          cases p with
          | fixed c hc =>
            cases t with
            | fixed d hd =>
              obtain ⟨rfl, hrest⟩ := List.cons.inj hmore
              exact ⟨rfl, hrest⟩
            | slot name h =>
              rw [Token.text, Token.text, placeholderText_eq] at hmore
              exact absurd (List.cons.inj hmore).1 hc
          | slot name h =>
            cases t with
            | fixed d hd =>
              rw [Token.text, Token.text, placeholderText_eq] at hmore
              exact absurd (List.cons.inj hmore).1.symm hd
            | slot other h' =>
              obtain ⟨rfl, hrest⟩ := placeholderText_append_inj h h' hmore
              exact ⟨rfl, hrest⟩
        rw [hsame.1, List.cons_prefix_cons]
        exact ⟨rfl, ih.mp ⟨more, hsame.2⟩⟩
    · rintro ⟨more, rfl⟩
      rw [tokensText_append, List.append_assoc]
      exact List.prefix_append _ _

/-- A placeholder stands in the text where it stands among the tokens. -/
theorem split_iff (hname : Bare name) : ∀ {tokens : List Token} {before after : List Char},
    tokensText tokens ++ tail.text = before ++ (placeholderText name ++ after) ↔
      ∃ front back, tokens = front ++ .slot name hname :: back ∧ before = tokensText front ∧
        after = tokensText back ++ tail.text := by
  intro tokens before after
  constructor
  · induction tokens generalizing before with
    | nil =>
      intro h
      rw [tokensText_nil, List.nil_append] at h
      refine absurd ?_ tail.unclosed
      rw [h]
      exact List.mem_append_right _ (List.mem_append_left _ mem_placeholderText)
    | cons t tokens ih =>
      intro h
      rw [tokensText_cons, List.append_assoc] at h
      -- the placeholder is this token, or what stands before it begins with this token
      have hcases : (t = .slot name hname ∧ before = [] ∧ tokensText tokens ++ tail.text = after) ∨
          ∃ between, before = t.text ++ between ∧
            tokensText tokens ++ tail.text = between ++ (placeholderText name ++ after) := by
        cases t with
        | fixed c hc =>
          right
          rw [placeholderText_eq, List.cons_append] at h
          obtain ⟨between, hbefore, hrest⟩ :=
            Text.exists_of_append_eq (by simpa [Token.text] using hc.symm) h
          exact ⟨between, hbefore, by rw [hrest, placeholderText_eq]; rfl⟩
        | slot other hother =>
          cases before with
          | nil =>
            obtain ⟨rfl, hafter⟩ := placeholderText_append_inj hother hname h
            exact Or.inl ⟨rfl, rfl, hafter⟩
          | cons c before =>
            right
            rw [Token.text, placeholderText_eq, placeholderText_eq, List.cons_append,
              List.cons_append, List.cons_append] at h
            obtain ⟨hc, hinner⟩ := List.cons.inj h
            have hclosed : '\x7b' ∉ other.toList ++ ['\x7d'] := by simpa using hother.1
            obtain ⟨between, hbefore, hrest⟩ := Text.exists_of_append_eq hclosed hinner
            refine ⟨between, ?_, by rw [hrest, placeholderText_eq]; rfl⟩
            rw [← hc, hbefore, Token.text, placeholderText_eq, List.cons_append]
      rcases hcases with ⟨rfl, rfl, hafter⟩ | ⟨between, rfl, hrest⟩
      · exact ⟨[], tokens, rfl, rfl, hafter.symm⟩
      · obtain ⟨front, back, rfl, rfl, hafter⟩ := ih hrest
        exact ⟨t :: front, back, rfl, rfl, hafter⟩
  · rintro ⟨front, back, rfl, rfl, rfl⟩
    rw [tokensText_append, tokensText_cons, Token.text, List.append_assoc, List.append_assoc]

/-- Two placeholders of one name count twice. -/
theorem two_le_count (hname : Bare name) (left middle right : List Token) :
    2 ≤ (tokenNames (left ++ .slot name hname :: (middle ++ .slot name hname :: right))).count
      name := by
  have hone : tokenNames [.slot name hname] = [name] := rfl
  rw [tokenNames_append, tokenNames_cons, tokenNames_append, tokenNames_cons _ right, hone]
  simp only [List.count_append, List.count_singleton_self]
  omega

/-- A placeholder that is there once stands in one place. -/
theorem split_unique {hname : Bare name} {front back front' back' : List Token}
    (honce : (tokenNames tokens).count name ≤ 1) (h : tokens = front ++ .slot name hname :: back)
    (h' : tokens = front' ++ .slot name hname :: back') : front = front' ∧ back = back' := by
  have htwice : ∀ left middle right,
      tokens ≠ left ++ .slot name hname :: (middle ++ .slot name hname :: right) := by
    rintro left middle right rfl
    have hcount := two_le_count hname left middle right
    omega
  rcases List.append_eq_append_iff.mp (h.symm.trans h') with
    ⟨overlap, hfront, hback⟩ | ⟨overlap, hfront, hback⟩
  · cases overlap with
    | nil => exact ⟨by simpa using hfront.symm, (List.cons.inj hback).2⟩
    | cons t overlap =>
      rw [List.cons_append, List.cons.injEq] at hback
      obtain ⟨rfl, rfl⟩ := hback
      exact absurd h (htwice front overlap back')
  · cases overlap with
    | nil => exact ⟨by simpa using hfront, (List.cons.inj hback).2.symm⟩
    | cons t overlap =>
      rw [List.cons_append, List.cons.injEq] at hback
      obtain ⟨rfl, rfl⟩ := hback
      exact absurd h' (htwice front' overlap back)

end Tokens

end DataContract.Route
