import DataContract.Proofs.TypeExpr.Grammar

/-!
# Reading by the grammar

The machine that reads type expressions is compared with derivations in both directions.  It gets
through the text of every derivation, and it stands behind its type then.  Whatever it has read at
any time is the text of the argument lists that are open, and of what has been derived within the
innermost one.

Results:

* `Reader.feed_phrase`: the machine gets through the text of a type.
* `Reader.Spells.step`: a move goes on with what has been read, from which `Reader.Spells.feed`.
* `parse_eq_ok_iff`: a text is read when it is blank or has a derivation.
* `grammar_exact`: what is read from a text, and that its derivation is the only one.
-/

namespace DataContract.TypeExpr

/-! ## Derivations that grow -/

/-- The type with one suffix more. -/
def Phrase.concat (p : Phrase) (s : Suffix) : Phrase := { p with suffixes := p.suffixes ++ [s] }

@[simp] theorem Phrase.text_concat (p : Phrase) (s : Suffix) :
    (p.concat s).text = p.text ++ s.text := by
  cases p
  simp [Phrase.concat, Phrase.text]

@[simp] theorem Phrase.tree_concat (p : Phrase) (s : Suffix) :
    (p.concat s).tree = s.wrap p.tree := by
  cases p
  simp [Phrase.concat, Phrase.tree]

/-- The gap with one blank more. -/
def Gap.concat (gap : Gap) (c : Char) (h : Text.isBlank c = true) : Gap :=
  ⟨gap.1 ++ [c], by
    intro d hd
    rcases List.mem_append.mp hd with hd | hd
    · exact gap.2 d hd
    · rw [List.mem_singleton.mp hd]
      exact h⟩

/-! ## The machine on the text of a derivation -/

namespace Reader

/-- The moves on a text. -/
def feed (state : Reader) (text : List Char) : Except Expected Reader := text.foldlM step state

theorem feed_nil (state : Reader) : state.feed [] = .ok state := rfl

theorem feed_cons (state : Reader) (c : Char) (text : List Char) :
    state.feed (c :: text) = (state.step c).bind (·.feed text) := rfl

theorem feed_append_of {state next last : Reader} {text more : List Char}
    (h : state.feed text = .ok next) (hmore : next.feed more = .ok last) :
    state.feed (text ++ more) = .ok last := by
  rw [feed, List.foldlM_append]
  show (state.feed text).bind (·.feed more) = .ok last
  rw [h]
  exact hmore

theorem feed_cons_of {state next last : Reader} {c : Char} {text : List Char}
    (h : state.step c = .ok next) (hmore : next.feed text = .ok last) :
    state.feed (c :: text) = .ok last := by
  rw [feed_cons, h]
  exact hmore

/-- A text is read when the machine gets through it and may stop there. -/
theorem run_eq_ok_iff {t : TypeExpr} : ∀ {text : List Char} {state : Reader} {offset : Nat},
    run offset state text = .ok t ↔ ∃ last, state.feed text = .ok last ∧ last.finish? = .ok t := by
  intro text
  induction text with
  | nil =>
    intro state offset
    rw [run, feed_nil]
    cases hfinish : state.finish? with
    | error e => simp [Except.mapError, hfinish]
    | ok u => simp [Except.mapError, hfinish]
  | cons c text ih =>
    intro state offset
    rw [run, feed_cons]
    cases state.step c with
    | error e => simp [Except.bind]
    | ok next => exact ih

/-- The state is behind a name. -/
inductive BehindName : Reader → String → List Frame → Prop where
  | name (letters : List Char) (frames : List Frame) :
      BehindName (.name letters frames) (spell letters) frames
  | head (n : String) (frames : List Frame) : BehindName (.head n frames) n frames

/-- The state is behind a type, which may be a name alone. -/
inductive BehindType : Reader → TypeExpr → List Frame → Prop where
  | ofName {state : Reader} {n : String} {frames : List Frame} : BehindName state n frames →
      BehindType state (ofName n) frames
  | type (t : TypeExpr) (frames : List Frame) : BehindType (.type t frames) t frames

section Moves

variable {state : Reader} {n : String} {t : TypeExpr} {frames : List Frame}

/-- A state that stays on blanks gets through a gap. -/
theorem feed_gap {gap : Gap} (h : ∀ c, Text.isBlank c = true → state.step c = .ok state) :
    state.feed gap.1 = .ok state := by
  obtain ⟨text, hblank⟩ := gap
  induction text with
  | nil => rfl
  | cons c text ih =>
    exact feed_cons_of (h c (hblank c (by simp))) (ih fun d hd => hblank d (by simp [hd]))

theorem BehindName.step (h : BehindName state n frames) {c : Char} (hc : isNameChar c = false) :
    state.step c = afterName n frames c := by
  cases h with
  | name letters frames => rw [Reader.step, hc, if_neg (by simp)]
  | head n frames => rfl

theorem BehindName.feed_gap (h : BehindName state n frames) (gap : Gap) :
    ∃ last, state.feed gap.1 = .ok last ∧ BehindName last n frames := by
  obtain ⟨text, hblank⟩ := gap
  cases text with
  | nil => exact ⟨state, rfl, h⟩
  | cons c text =>
    have hc : Text.isBlank c = true := hblank c (by simp)
    have hmove : state.step c = .ok (.head n frames) := by
      rw [h.step (isNameChar_eq_false hc), afterName, if_pos hc]
    let rest : Gap := ⟨text, fun d hd => hblank d (by simp [hd])⟩
    have hrest : (Reader.head n frames).feed rest.1 = .ok (.head n frames) :=
      Reader.feed_gap fun d hd => by rw [Reader.step, afterName, if_pos hd]
    exact ⟨_, feed_cons_of hmove hrest, .head n frames⟩

theorem BehindType.feed_gap (h : BehindType state t frames) (gap : Gap) :
    ∃ last, state.feed gap.1 = .ok last ∧ BehindType last t frames := by
  cases h with
  | ofName h =>
    obtain ⟨last, hfeed, hlast⟩ := h.feed_gap gap
    exact ⟨last, hfeed, .ofName hlast⟩
  | type t frames =>
    exact ⟨_, Reader.feed_gap fun c hc => by simp [Reader.step, afterType, hc], .type t frames⟩

theorem BehindType.step (h : BehindType state t frames) {c : Char} (hc : isNameChar c = false)
    (hblank : Text.isBlank c = false) (hopen : c ≠ '<') :
    state.step c = afterType t frames c := by
  cases h with
  | ofName h => rw [h.step hc, afterName, hblank, if_neg (by simp), if_neg hopen]
  | type t frames => rfl

theorem BehindType.finish? (h : BehindType state t []) : state.finish? = .ok t := by
  cases h with
  | ofName h => cases h <;> rfl
  | type => rfl

/-- Behind a gap a delimiter moves as behind the type. -/
theorem BehindType.feed_token (h : BehindType state t frames) (gap : Gap) {c : Char}
    (hc : c ∈ [',', '>', '[', '?']) {next : Reader} (hnext : afterType t frames c = .ok next) :
    state.feed (gap.1 ++ [c]) = .ok next := by
  obtain ⟨last, hfeed, hlast⟩ := h.feed_gap gap
  have hplain := delimiters_plain c (by simp_all; tauto)
  have hopen : c ≠ '<' := by rintro rfl; simp at hc
  refine feed_append_of hfeed (feed_cons_of ?_ (feed_nil next))
  rw [hlast.step hplain.1 hplain.2 hopen, hnext]

theorem feed_suffix (h : BehindType state t frames) (s : Suffix) :
    state.feed s.text = .ok (.type (s.wrap t) frames) := by
  cases s with
  | array gap inner =>
    have hopen : state.feed (gap.1 ++ ['[']) = .ok (.bracket t frames) :=
      h.feed_token gap (by simp) (by simp [afterType, delimiters_plain])
    have hinner : (Reader.bracket t frames).feed inner.1 = .ok (.bracket t frames) :=
      feed_gap fun c hc => by rw [Reader.step, if_pos hc]
    have hclose : (Reader.bracket t frames).step ']' = .ok (.type (.array t) frames) := by
      simp [Reader.step, delimiters_plain]
    rw [Suffix.text, ← List.singleton_append, ← List.append_assoc]
    exact feed_append_of hopen (feed_append_of hinner (feed_cons_of hclose (feed_nil _)))
  | nullable gap =>
    exact h.feed_token gap (by simp) (by simp [afterType, delimiters_plain, Suffix.wrap])

theorem feed_suffixes (suffixes : List Suffix) {state : Reader} {t : TypeExpr}
    (h : BehindType state t frames) : ∃ last, state.feed (suffixes.flatMap Suffix.text) = .ok last ∧
      BehindType last (suffixes.foldl Suffix.wrap t) frames := by
  induction suffixes generalizing state t with
  | nil => exact ⟨state, rfl, h⟩
  | cons s suffixes ih =>
    obtain ⟨last, hfeed, hlast⟩ := ih (.type (s.wrap t) frames)
    rw [List.flatMap_cons]
    exact ⟨last, feed_append_of (feed_suffix h s) hfeed, hlast⟩

theorem feed_letters : ∀ {more letters : List Char}, (∀ c ∈ more, isNameChar c = true) →
    (Reader.name letters frames).feed more = .ok (.name (more.reverse ++ letters) frames) := by
  intro more
  induction more with
  | nil => intro letters _; rfl
  | cons c more ih =>
    intro letters h
    have hc : (Reader.name letters frames).step c = .ok (.name (c :: letters) frames) := by
      rw [Reader.step, if_pos (h c (by simp))]
    rw [List.reverse_cons, List.append_assoc, List.singleton_append]
    exact feed_cons_of hc (ih fun d hd => h d (by simp [hd]))

theorem feed_name (gap : Gap) (name : Name) :
    (Reader.start frames).feed (gap.1 ++ name.1.toList) =
      .ok (.name name.1.toList.reverse frames) := by
  have hgap : (Reader.start frames).feed gap.1 = .ok (.start frames) :=
    feed_gap fun c hc => by rw [Reader.step, if_pos hc]
  obtain ⟨name, hne, hletters⟩ := name
  cases hname : name.toList with
  | nil => exact absurd hname hne
  | cons c more =>
    rw [hname] at hletters
    have hc : isNameChar c = true := hletters c (by simp)
    have hfirst : (Reader.start frames).step c = .ok (.name [c] frames) := by
      rw [Reader.step, isBlank_eq_false hc, if_neg (by simp), if_pos hc]
    rw [List.reverse_cons]
    exact feed_append_of hgap
      (feed_cons_of hfirst (feed_letters fun d hd => hletters d (by simp [hd])))

theorem spell_reverse (name : String) : spell name.toList.reverse = name := by
  simp [spell]

end Moves

theorem ofName_eq_applied (n : String) : ofName n = applied n [] := by
  simp [ofName, applied]

mutual

/-- The machine gets through the text of a type and stands behind that type then. -/
theorem feed_phrase (p : Phrase) (frames : List Frame) :
    ∃ last, (Reader.start frames).feed p.text = .ok last ∧ BehindType last p.tree frames := by
  obtain ⟨gap, name, arguments, suffixes⟩ := p
  obtain ⟨last, hfeed, hlast⟩ := feed_arguments arguments name frames
  obtain ⟨final, hsuffixes, hfinal⟩ := feed_suffixes suffixes hlast
  refine ⟨final, ?_, hfinal⟩
  rw [Phrase.text, ← List.append_assoc]
  exact feed_append_of (feed_name gap name) (feed_append_of hfeed hsuffixes)

/-- The arguments turn the name before them into a type. -/
theorem feed_arguments (arguments : Arguments) (name : Name) (frames : List Frame) :
    ∃ last, (Reader.name name.1.toList.reverse frames).feed arguments.text = .ok last ∧
      BehindType last (applied name.1 arguments.trees) frames := by
  have hbehind := BehindName.name name.1.toList.reverse frames
  rw [spell_reverse] at hbehind
  match arguments with
  | .none =>
    refine ⟨_, feed_nil _, ?_⟩
    rw [Arguments.trees, ← ofName_eq_applied]
    exact .ofName hbehind
  | .list gap first more =>
    obtain ⟨next, hgap, hnext⟩ := hbehind.feed_gap gap
    have hopen : next.step '<' = .ok (.start (⟨name.1, []⟩ :: frames)) := by
      rw [hnext.step (by simp [delimiters_plain])]
      simp [afterName, delimiters_plain]
    obtain ⟨last, hfirst, hlast⟩ := feed_phrase first (⟨name.1, []⟩ :: frames)
    refine ⟨_, feed_append_of hgap
      (feed_cons_of hopen (feed_append_of hfirst (feed_more more hlast))), ?_⟩
    have happlied : applied name.1 (first.tree :: more.trees) =
        .named name.1 (first.tree :: more.trees) := by simp [applied]
    rw [Arguments.trees, happlied]
    exact .type _ frames

/-- What follows an argument closes the argument list that is open. -/
theorem feed_more (more : MoreArguments) {state : Reader} {t : TypeExpr} {frame : Frame}
    {frames : List Frame} (h : BehindType state t (frame :: frames)) :
    state.feed more.text =
      .ok (.type (.named frame.name (frame.args.reverse ++ t :: more.trees)) frames) := by
  match more with
  | .close gap =>
    exact h.feed_token gap (by simp)
      (by simp [afterType, delimiters_plain, MoreArguments.trees])
  | .comma gap next more =>
    have hcomma : state.feed (gap.1 ++ [',']) =
        .ok (.start ({ frame with args := t :: frame.args } :: frames)) :=
      h.feed_token gap (by simp) (by simp [afterType, delimiters_plain])
    obtain ⟨last, hnext, hlast⟩ :=
      feed_phrase next ({ frame with args := t :: frame.args } :: frames)
    have hrest := feed_append_of hcomma (feed_append_of hnext (feed_more more hlast))
    simpa [MoreArguments.text, MoreArguments.trees] using hrest

end

/-! ## What the machine has read -/

/-- A text is that of the argument lists that are open, up to a place where a type must begin. -/
inductive Opened : List Frame → List Char → Prop where
  | nil : Opened [] []
  | openList {outer : List Frame} {before : List Char} (gap : Gap) (name : Name) (inner : Gap) :
      Opened outer before →
      Opened (⟨name.1, []⟩ :: outer) (before ++ (gap.1 ++ (name.1.toList ++ (inner.1 ++ ['<']))))
  | comma {frame : Frame} {outer : List Frame} {before : List Char} (p : Phrase) (gap : Gap) :
      Opened (frame :: outer) before →
      Opened ({ frame with args := p.tree :: frame.args } :: outer)
        (before ++ (p.text ++ (gap.1 ++ [','])))

/-- With what is left of its arguments, an open argument list becomes a type. -/
theorem Opened.close {frame : Frame} {outer : List Frame} {before : List Char}
    (h : Opened (frame :: outer) before) (p : Phrase) (more : MoreArguments) :
    ∃ (start : List Char) (whole : Phrase), Opened outer start ∧
      before ++ (p.text ++ more.text) = start ++ whole.text ∧
      whole.tree = .named frame.name (frame.args.reverse ++ p.tree :: more.trees) := by
  generalize hframes : frame :: outer = frames at h
  induction h generalizing frame p more with
  | nil => cases hframes
  | @openList outer' start gap name inner hstart _ =>
    cases hframes
    refine ⟨start, ⟨gap, name, .list inner p more, []⟩, hstart, ?_, ?_⟩
    · simp [Phrase.text, Arguments.text]
    · simp [Phrase.tree, Arguments.trees, applied]
  | @comma inner outer' start q gap hstart ih =>
    cases hframes
    obtain ⟨start, whole, hopened, htext, htree⟩ := ih q (.comma gap p more) rfl
    refine ⟨start, whole, hopened, ?_, ?_⟩
    · rw [← htext]
      simp [MoreArguments.text]
    · rw [htree]
      simp [MoreArguments.trees]

/-- The text read so far ends with a name that may get arguments. -/
def EndsInName (text : List Char) (n : String) (frames : List Frame) : Prop :=
  ∃ (before : List Char) (gap : Gap) (name : Name) (behind : Gap), Opened frames before ∧
    text = before ++ (gap.1 ++ (name.1.toList ++ behind.1)) ∧ name.1 = n

/-- The text read so far ends with a type. -/
def EndsInType (text : List Char) (t : TypeExpr) (frames : List Frame) : Prop :=
  ∃ (before : List Char) (p : Phrase) (behind : Gap), Opened frames before ∧
    text = before ++ (p.text ++ behind.1) ∧ p.tree = t

/-- The state spells the text read so far. -/
def Spells (text : List Char) : Reader → Prop
  | .start frames => ∃ (before : List Char) (gap : Gap), Opened frames before ∧
      text = before ++ gap.1
  | .name letters frames => ∃ (before : List Char) (gap : Gap) (name : Name),
      Opened frames before ∧ text = before ++ (gap.1 ++ name.1.toList) ∧
        name.1 = spell letters
  | .head n frames => EndsInName text n frames
  | .type t frames => EndsInType text t frames
  | .bracket element frames => ∃ (before : List Char) (p : Phrase) (behind inner : Gap),
      Opened frames before ∧ text = before ++ (p.text ++ (behind.1 ++ '[' :: inner.1)) ∧
        p.tree = element

section Spelling

variable {text : List Char} {c : Char} {next : Reader}

theorem EndsInName.type {n : String} {frames : List Frame} (h : EndsInName text n frames) :
    EndsInType text (ofName n) frames := by
  obtain ⟨before, gap, name, behind, hbefore, rfl, rfl⟩ := h
  refine ⟨before, ⟨gap, name, .none, []⟩, behind, hbefore, ?_, ?_⟩
  · simp [Phrase.text, Arguments.text]
  · simp [Phrase.tree, Arguments.trees, ofName_eq_applied]

theorem EndsInType.blank {t : TypeExpr} {frames : List Frame} (h : EndsInType text t frames)
    (hc : Text.isBlank c = true) : EndsInType (text ++ [c]) t frames := by
  obtain ⟨before, p, behind, hbefore, rfl, rfl⟩ := h
  exact ⟨before, p, behind.concat c hc, hbefore, by simp [Gap.concat], rfl⟩

theorem EndsInType.suffix {t : TypeExpr} {frames : List Frame} (h : EndsInType text t frames) :
    EndsInType (text ++ ['?']) t.nullable frames := by
  obtain ⟨before, p, behind, hbefore, rfl, rfl⟩ := h
  exact ⟨before, p.concat (.nullable behind), ⟨[], by simp⟩, hbefore, by simp [Suffix.text],
    by simp [Suffix.wrap]⟩

/-- The moves behind a type: on a blank, to a suffix, or within the innermost list that is open. -/
theorem afterType_cases {t : TypeExpr} {frames : List Frame} (h : afterType t frames c = .ok next) :
    (Text.isBlank c = true ∧ next = .type t frames) ∨
    (c = '[' ∧ next = .bracket t frames) ∨
    (c = '?' ∧ next = .type t.nullable frames) ∨
    ∃ frame outer, frames = frame :: outer ∧
      ((c = ',' ∧ next = .start ({ frame with args := t :: frame.args } :: outer)) ∨
        (c = '>' ∧ next = .type (.named frame.name (t :: frame.args).reverse) outer)) := by
  unfold afterType at h
  cases frames with
  | nil =>
    simp only at h
    split_ifs at h with hblank hopen hoptional
    · exact Or.inl ⟨hblank, (Except.ok.inj h).symm⟩
    · exact Or.inr (Or.inl ⟨hopen, (Except.ok.inj h).symm⟩)
    · exact Or.inr (Or.inr (Or.inl ⟨hoptional, (Except.ok.inj h).symm⟩))
  | cons frame outer =>
    simp only at h
    split_ifs at h with hblank hopen hoptional hcomma hclose
    · exact Or.inl ⟨hblank, (Except.ok.inj h).symm⟩
    · exact Or.inr (Or.inl ⟨hopen, (Except.ok.inj h).symm⟩)
    · exact Or.inr (Or.inr (Or.inl ⟨hoptional, (Except.ok.inj h).symm⟩))
    · exact Or.inr (Or.inr (Or.inr ⟨frame, outer, rfl, Or.inl ⟨hcomma, (Except.ok.inj h).symm⟩⟩))
    · exact Or.inr (Or.inr (Or.inr ⟨frame, outer, rfl, Or.inr ⟨hclose, (Except.ok.inj h).symm⟩⟩))

/-- A move behind a type goes on with what has been read. -/
theorem EndsInType.move {t : TypeExpr} {frames : List Frame} (h : EndsInType text t frames)
    (hmove : afterType t frames c = .ok next) : next.Spells (text ++ [c]) := by
  rcases afterType_cases hmove with ⟨hblank, rfl⟩ | ⟨rfl, rfl⟩ | ⟨rfl, rfl⟩ |
    ⟨frame, outer, rfl, ⟨rfl, rfl⟩ | ⟨rfl, rfl⟩⟩
  · exact h.blank hblank
  · obtain ⟨before, p, behind, hbefore, rfl, rfl⟩ := h
    exact ⟨before, p, behind, ⟨[], by simp⟩, hbefore, by simp, rfl⟩
  · exact h.suffix
  · obtain ⟨before, p, behind, hbefore, rfl, rfl⟩ := h
    exact ⟨_, ⟨[], by simp⟩, .comma p behind hbefore, by simp⟩
  · obtain ⟨before, p, behind, hbefore, rfl, rfl⟩ := h
    obtain ⟨start, whole, hopened, htext, htree⟩ := hbefore.close p (.close behind)
    refine ⟨start, whole, ⟨[], by simp⟩, hopened, ?_, ?_⟩
    · simpa [MoreArguments.text] using htext
    · simpa [MoreArguments.trees] using htree

/-- A move behind a name goes on with what has been read. -/
theorem EndsInName.move {n : String} {frames : List Frame} (h : EndsInName text n frames)
    (hmove : afterName n frames c = .ok next) : next.Spells (text ++ [c]) := by
  unfold afterName at hmove
  split_ifs at hmove with hblank hopen
  · cases hmove
    obtain ⟨before, gap, name, behind, hbefore, rfl, rfl⟩ := h
    exact ⟨before, gap, name, behind.concat c hblank, hbefore, by simp [Gap.concat], rfl⟩
  · cases hmove
    obtain ⟨before, gap, name, behind, hbefore, rfl, rfl⟩ := h
    refine ⟨_, ⟨[], by simp⟩, .openList gap name behind hbefore, ?_⟩
    simp [hopen]
  · exact h.type.move hmove

/-- A move goes on with what has been read. -/
theorem Spells.step {state : Reader} (h : state.Spells text) (hmove : state.step c = .ok next) :
    next.Spells (text ++ [c]) := by
  cases state with
  | start frames =>
    obtain ⟨before, gap, hbefore, rfl⟩ := h
    simp only [Reader.step] at hmove
    split_ifs at hmove with hblank hname
    · cases hmove
      exact ⟨before, gap.concat c hblank, hbefore, by simp [Gap.concat]⟩
    · cases hmove
      have hletter : IsName (String.ofList [c]) := by simp [IsName, hname]
      exact ⟨before, gap, ⟨_, hletter⟩, hbefore, by simp, by simp [spell]⟩
  | name letters frames =>
    obtain ⟨before, gap, name, hbefore, rfl, hspell⟩ := h
    simp only [Reader.step] at hmove
    split_ifs at hmove with hname
    · cases hmove
      have hlonger : IsName (String.ofList (name.1.toList ++ [c])) := by
        obtain ⟨hne, hletters⟩ := name.2
        simp only [IsName, String.toList_ofList, List.mem_append, List.mem_singleton]
        refine ⟨by simp, ?_⟩
        rintro d (hd | rfl)
        · exact hletters d hd
        · exact hname
      refine ⟨before, gap, ⟨_, hlonger⟩, hbefore, by simp, ?_⟩
      simp [hspell, spell]
    · have hbehind : EndsInName (before ++ (gap.1 ++ name.1.toList)) (spell letters) frames :=
        ⟨before, gap, name, ⟨[], by simp⟩, hbefore, by simp, hspell⟩
      exact hbehind.move hmove
  | head n frames => exact EndsInName.move h hmove
  | type t frames => exact EndsInType.move h hmove
  | bracket element frames =>
    obtain ⟨before, p, behind, inner, hbefore, rfl, rfl⟩ := h
    simp only [Reader.step] at hmove
    split_ifs at hmove with hblank hclose
    · cases hmove
      exact ⟨before, p, behind, inner.concat c hblank, hbefore, by simp [Gap.concat], rfl⟩
    · cases hmove
      refine ⟨before, p.concat (.array behind inner), ⟨[], by simp⟩, hbefore, ?_, ?_⟩
      · simp [Suffix.text, hclose]
      · simp [Suffix.wrap]

/-- What the machine has read is spelled by its state. -/
theorem Spells.feed : ∀ {more text : List Char} {state : Reader}, state.Spells text →
    state.feed more = .ok next → next.Spells (text ++ more) := by
  intro more
  induction more with
  | nil =>
    intro text state h hfeed
    cases hfeed
    rwa [List.append_nil]
  | cons c more ih =>
    intro text state h hfeed
    rw [feed_cons] at hfeed
    cases hmove : state.step c with
    | error e => rw [hmove] at hfeed; cases hfeed
    | ok middle =>
      rw [hmove] at hfeed
      rw [← List.singleton_append, ← List.append_assoc]
      exact ih (h.step hmove) hfeed

theorem EndsInType.exists_sentence {t : TypeExpr} (h : EndsInType text t []) :
    ∃ s : Sentence, s.text = text ∧ s.type.tree = t := by
  obtain ⟨before, p, behind, hbefore, rfl, rfl⟩ := h
  cases hbefore
  exact ⟨⟨p, behind⟩, rfl, rfl⟩

/-- Where the machine may stop, a whole derivation has been read. -/
theorem Spells.exists_sentence {state : Reader} {t : TypeExpr} (h : state.Spells text)
    (hfinish : state.finish? = .ok t) : ∃ s : Sentence, s.text = text ∧ s.type.tree = t := by
  unfold finish? at hfinish
  split at hfinish <;> cases hfinish
  · obtain ⟨before, gap, name, hbefore, rfl, hspell⟩ := h
    have hbehind : EndsInName (before ++ (gap.1 ++ name.1.toList)) _ [] :=
      ⟨before, gap, name, ⟨[], by simp⟩, hbefore, by simp, hspell⟩
    exact hbehind.type.exists_sentence
  · exact (EndsInName.type h).exists_sentence
  · exact EndsInType.exists_sentence h

end Spelling

end Reader

/-! ## Reading a text -/

theorem Sentence.not_blank (s : Sentence) : ¬ s.text.all Text.isBlank = true := by
  obtain ⟨⟨gap, name, arguments, suffixes⟩, behind⟩ := s
  obtain ⟨c, hc⟩ := List.exists_mem_of_ne_nil _ name.2.1
  intro hall
  have hblank := List.all_eq_true.mp hall c (by simp [Sentence.text, Phrase.text, hc])
  rw [isBlank_eq_false (name.2.2 c hc)] at hblank
  cases hblank

/-- The text of a derivation is read as the type of the derivation. -/
theorem Sentence.run_eq_ok (s : Sentence) (offset : Nat) :
    Reader.run offset (.start []) s.text = .ok s.type.tree := by
  obtain ⟨middle, hphrase, hmiddle⟩ := Reader.feed_phrase s.type []
  obtain ⟨last, hgap, hlast⟩ := hmiddle.feed_gap s.gap
  exact Reader.run_eq_ok_iff.mpr ⟨last, Reader.feed_append_of hphrase hgap, hlast.finish?⟩

/-- What is read has been derived. -/
theorem Reader.exists_sentence_of_run {text : List Char} {t : TypeExpr} {offset : Nat}
    (h : Reader.run offset (.start []) text = .ok t) :
    ∃ s : Sentence, s.text = text ∧ s.type.tree = t := by
  obtain ⟨last, hfeed, hfinish⟩ := Reader.run_eq_ok_iff.mp h
  have hstart : (Reader.start []).Spells [] := ⟨[], ⟨[], by simp⟩, .nil, rfl⟩
  exact (hstart.feed hfeed).exists_sentence hfinish

/-- A text is read as `void` when it is blank, and otherwise as what it is derived from. -/
theorem parse_eq_ok_iff {text : String} {t : TypeExpr} :
    parse text = .ok t ↔ ((∀ c ∈ text.toList, Text.isBlank c = true) ∧ t = .void) ∨
      ∃ s : Sentence, s.text = text.toList ∧ s.type.tree = t := by
  unfold parse
  constructor
  · intro h
    split_ifs at h with hblank
    · cases h
      exact Or.inl ⟨List.all_eq_true.mp hblank, rfl⟩
    · cases hrun : Reader.run 0 (.start []) text.toList with
      | error e => rw [hrun] at h; cases h
      | ok u =>
        rw [hrun] at h
        cases h
        exact Or.inr (Reader.exists_sentence_of_run hrun)
  · rintro (⟨hblank, rfl⟩ | ⟨s, htext, rfl⟩)
    · rw [if_pos (List.all_eq_true.mpr hblank)]
    · rw [if_neg (htext ▸ s.not_blank), ← htext, s.run_eq_ok]
      rfl

/-- The texts that are read are the blank ones, as `void`, and those with a derivation by the
grammar, as its type.  There is only one derivation of a text. -/
theorem grammar_exact (text : String) (t : TypeExpr) :
    (parse text = .ok t ↔ ((∀ c ∈ text.toList, Text.isBlank c = true) ∧ t = .void) ∨
      ∃ s : Sentence, s.text = text.toList ∧ s.type.tree = t) ∧
    Function.Injective Sentence.text :=
  ⟨parse_eq_ok_iff, Sentence.text_injective⟩

end DataContract.TypeExpr
