import DataContract.Proofs.TypeExpr.Reading

/-!
# Where a text stops being a type expression

The machine that reads type expressions never waits for what cannot come: from each of its states
some text leads to an end where it may stop.  So it gets through a text exactly when the text is the
beginning of one that is read, and the place where it stops is where that ends.

Results:

* `Reader.exists_completion`: from each state some text leads to an end.
* `viable_iff_feed`: the beginnings of the texts that are read are those the machine gets through.
* `fault_at_first_impossible`: the place of a fault is behind the longest such beginning.
-/

namespace DataContract.TypeExpr

/-! ## The end is always within reach -/

namespace Reader

/-- Behind a type, the argument lists that are open can be closed. -/
theorem BehindType.exists_completion {state : Reader} {t : TypeExpr} {frames : List Frame}
    (h : BehindType state t frames) :
    ∃ more last whole, state.feed more = .ok last ∧ last.finish? = .ok whole := by
  induction frames generalizing state t with
  | nil => exact ⟨[], state, t, feed_nil state, h.finish?⟩
  | cons frame outer ih =>
    have hclose : state.feed ['>'] =
        .ok (.type (.named frame.name (t :: frame.args).reverse) outer) :=
      h.feed_token ⟨[], by simp⟩ (by simp) (by simp [afterType, delimiters_plain])
    obtain ⟨more, last, whole, hmore, hlast⟩ := ih (.type _ outer)
    exact ⟨['>'] ++ more, last, whole, feed_append_of hclose hmore, hlast⟩

/-- From each state some text leads to an end. -/
theorem exists_completion (state : Reader) :
    ∃ more last whole, state.feed more = .ok last ∧ last.finish? = .ok whole := by
  cases state with
  | start frames =>
    have hname : (Reader.start frames).step 'T' = .ok (.name ['T'] frames) := by
      have hplain : isNameChar 'T' = true := by decide +kernel
      rw [step, isBlank_eq_false hplain, if_neg (by simp), if_pos hplain]
    obtain ⟨more, last, whole, hmore, hlast⟩ :=
      (BehindType.ofName (.name ['T'] frames)).exists_completion
    exact ⟨'T' :: more, last, whole, feed_cons_of hname hmore, hlast⟩
  | name letters frames => exact (BehindType.ofName (.name letters frames)).exists_completion
  | head n frames => exact (BehindType.ofName (.head n frames)).exists_completion
  | type t frames => exact (BehindType.type t frames).exists_completion
  | bracket element frames =>
    have hclose : (Reader.bracket element frames).step ']' = .ok (.type (.array element) frames) :=
      by simp [step, delimiters_plain]
    obtain ⟨more, last, whole, hmore, hlast⟩ :=
      (BehindType.type (.array element) frames).exists_completion
    exact ⟨']' :: more, last, whole, feed_cons_of hclose hmore, hlast⟩

/-! ## The place of a fault -/

/-- The machine gets through what stands before a text that it gets through. -/
theorem exists_feed_of_append {state last : Reader} {text more : List Char}
    (h : state.feed (text ++ more) = .ok last) : ∃ middle, state.feed text = .ok middle := by
  rw [feed, List.foldlM_append] at h
  cases htext : state.feed text with
  | error e =>
    rw [feed] at htext
    rw [htext] at h
    cases h
  | ok middle => exact ⟨middle, rfl⟩

/-- A text is refused at the first character for which there is no move, or at its end, where the
machine may not stop. -/
theorem exists_feed_of_run_error {text : List Char} {expected : Expected} {place : ℕ} :
    ∀ {state : Reader} {offset : ℕ}, run offset state text = .error (expected, place) →
      ∃ before rest last, text = before ++ rest ∧ place = offset + before.length ∧
        state.feed before = .ok last ∧ ∀ c ∈ rest.head?, last.step c = .error expected := by
  induction text with
  | nil =>
    intro state offset h
    rw [run] at h
    cases hfinish : state.finish? with
    | ok t => rw [hfinish] at h; cases h
    | error e =>
      rw [hfinish] at h
      cases h
      exact ⟨[], [], state, rfl, rfl, feed_nil state, by simp⟩
  | cons c text ih =>
    intro state offset h
    rw [run] at h
    cases hmove : state.step c with
    | error e =>
      rw [hmove] at h
      cases h
      exact ⟨[], c :: text, state, rfl, rfl, feed_nil state, by simpa using hmove⟩
    | ok next =>
      rw [hmove] at h
      obtain ⟨before, rest, last, rfl, rfl, hfeed, hlast⟩ := ih h
      refine ⟨c :: before, rest, last, rfl, ?_, feed_cons_of hmove hfeed, hlast⟩
      rw [List.length_cons]
      omega

end Reader

/-! ## Beginnings of the texts that are read -/

/-- The text is the beginning of one that is read. -/
def Viable (text : List Char) : Prop :=
  ∃ whole t, parse whole = .ok t ∧ text <+: whole.toList

theorem exists_feed_of_parse {whole : String} {t : TypeExpr} (h : parse whole = .ok t) :
    ∃ last, (Reader.start []).feed whole.toList = .ok last := by
  rcases parse_eq_ok_iff.mp h with ⟨hblank, -⟩ | ⟨s, hs, -⟩
  · let gap : Gap := ⟨whole.toList, hblank⟩
    have hgap : (Reader.start []).feed gap.1 = .ok (.start []) :=
      Reader.feed_gap fun c hc => by rw [Reader.step, if_pos hc]
    exact ⟨.start [], hgap⟩
  · have hrun := s.run_eq_ok 0
    rw [hs] at hrun
    obtain ⟨last, hfeed, -⟩ := Reader.run_eq_ok_iff.mp hrun
    exact ⟨last, hfeed⟩

/-- The beginnings of the texts that are read are the texts that the machine gets through. -/
theorem viable_iff_feed {text : List Char} :
    Viable text ↔ ∃ last, (Reader.start []).feed text = .ok last := by
  constructor
  · rintro ⟨whole, t, hwhole, more, hmore⟩
    obtain ⟨last, hlast⟩ := exists_feed_of_parse hwhole
    rw [← hmore] at hlast
    exact Reader.exists_feed_of_append hlast
  · rintro ⟨middle, hmiddle⟩
    obtain ⟨more, last, whole, hmore, hfinish⟩ := middle.exists_completion
    have hrun : Reader.run 0 (.start []) (text ++ more) = .ok whole :=
      Reader.run_eq_ok_iff.mpr ⟨last, Reader.feed_append_of hmiddle hmore, hfinish⟩
    obtain ⟨s, hs, htree⟩ := Reader.exists_sentence_of_run hrun
    refine ⟨String.ofList (text ++ more), whole, ?_, by simp⟩
    exact parse_eq_ok_iff.mpr (Or.inr ⟨s, by rw [hs, String.toList_ofList], htree⟩)

/-- A character for which there is no move makes a beginning impossible. -/
theorem not_viable_concat {before : List Char} {last : Reader} {c : Char} {expected : Expected}
    (hfeed : (Reader.start []).feed before = .ok last) (hc : last.step c = .error expected) :
    ¬ Viable (before ++ [c]) := by
  intro hviable
  obtain ⟨final, hfinal⟩ := viable_iff_feed.mp hviable
  rw [Reader.feed, List.foldlM_append] at hfinal
  rw [Reader.feed] at hfeed
  rw [hfeed] at hfinal
  change (Reader.feed last [c]) = .ok final at hfinal
  rw [Reader.feed_cons, hc] at hfinal
  cases hfinal

/-- A text that is refused is refused at the first character with which it stops being the beginning
of a text that is read, or at its end if it only ends too early. -/
theorem fault_at_first_impossible {text : String} {e : SyntaxError}
    (h : parse text = .error e) :
    e.offset ≤ text.length ∧ Viable (text.toList.take e.offset) ∧
      (e.offset < text.length → ¬ Viable (text.toList.take (e.offset + 1))) := by
  have hrun : Reader.run 0 (.start []) text.toList = .error (e.expected, e.offset) := by
    rw [parse] at h
    split_ifs at h
    cases hresult : Reader.run 0 (.start []) text.toList with
    | ok t => rw [hresult] at h; cases h
    | error fault => rw [hresult] at h; cases h; rfl
  obtain ⟨before, rest, last, htext, hplace, hfeed, hstop⟩ := Reader.exists_feed_of_run_error hrun
  rw [Nat.zero_add] at hplace
  have hlength : text.length = before.length + rest.length := by
    rw [← String.length_toList, htext, List.length_append]
  rw [htext, hplace, List.take_left, hlength]
  refine ⟨Nat.le_add_right _ _, viable_iff_feed.mpr ⟨last, hfeed⟩, fun hmore => ?_⟩
  cases rest with
  | nil => simp at hmore
  | cons c rest =>
    rw [List.take_length_add_append, List.take_succ_cons, List.take_zero]
    exact not_viable_concat hfeed (hstop c (by simp))

/-- In `A<B[x`, the text up to the `x` can be completed, and the text with it cannot. -/
theorem bracket_fault : parse "A<B[x" = .error ⟨"A<B[x", .closingBracket, 4⟩ ∧
    4 ≤ "A<B[x".length ∧ Viable ['A', '<', 'B', '['] ∧ ¬ Viable ['A', '<', 'B', '[', 'x'] := by
  have hparse : parse "A<B[x" = .error ⟨"A<B[x", .closingBracket, 4⟩ := by decide +kernel
  obtain ⟨hplace, hbefore, hbehind⟩ := fault_at_first_impossible hparse
  exact ⟨hparse, hplace, hbefore, hbehind (by decide)⟩

end DataContract.TypeExpr
