import DataContract.Text.Search
import Mathlib.Data.List.Basic
import Mathlib.Data.List.Infix
import Mathlib.Data.List.TakeWhile
import Mathlib.Tactic.Common

/-!
# Occurrences and their replacement

Replacement goes through a text from left to right: at a place where the pattern stands it goes on
behind the pattern, and anywhere else it keeps one character.

Results:

* `append_inj_of_kind`: a run of characters of one kind ends where another kind begins.
* `exists_of_append_eq`: a part without a character ends before that character comes next.
* `cut?_first`: a text is cut at the first occurrence of a character.
* `occurs_iff`: an occurrence is a part of the text.
* `replaceAll_append`, `replaceAll_cons`: the two moves of a replacement.
* `replaceAll_of_not_begins`: what no occurrence begins in is kept.
* `replaceAll_singleton`: a single character is replaced wherever it stands.
-/

namespace DataContract.Text

/-- A run of characters of one kind ends where another kind begins. -/
theorem append_inj_of_kind {kind : Char → Bool} {a b rest rest' : List Char}
    (ha : ∀ c ∈ a, kind c = true) (hb : ∀ c ∈ b, kind c = true)
    (hrest : ∀ c ∈ rest.head?, kind c = false) (hrest' : ∀ c ∈ rest'.head?, kind c = false)
    (h : a ++ rest = b ++ rest') : a = b ∧ rest = rest' := by
  have hstop : ∀ {text : List Char}, (∀ c ∈ text.head?, kind c = false) →
      text.takeWhile kind = [] := by
    intro text htext
    cases text with
    | nil => rfl
    | cons c text => rw [List.takeWhile_cons, htext c (by simp), if_neg (by simp)]
  have hsame : a = b := by
    have htake := congrArg (List.takeWhile kind) h
    rwa [List.takeWhile_append_of_pos ha, List.takeWhile_append_of_pos hb, hstop hrest,
      hstop hrest', List.append_nil, List.append_nil] at htake
  rw [hsame] at h
  exact ⟨hsame, List.append_cancel_left h⟩

/-- A part without a character ends before that character comes next. -/
theorem exists_of_append_eq {c : Char} {part rest before behind : List Char} (h : c ∉ part)
    (heq : part ++ rest = before ++ c :: behind) :
    ∃ between, before = part ++ between ∧ rest = between ++ c :: behind := by
  rcases List.append_eq_append_iff.mp heq with ⟨between, hbefore, hrest⟩ | ⟨overlap, hpart, hrest⟩
  · exact ⟨between, hbefore, hrest⟩
  · cases overlap with
    | nil => exact ⟨[], by simpa using hpart.symm, by simpa using hrest.symm⟩
    | cons d overlap =>
      obtain ⟨rfl, -⟩ := List.cons.inj hrest
      exact absurd (by rw [hpart]; simp) h

/-- A text is cut at the first occurrence of a character. -/
theorem cut?_first {c : Char} {before behind : List Char} (h : c ∉ before) :
    cut? [c] (before ++ c :: behind) = some (before, behind) := by
  induction before with
  | nil => simp [cut?]
  | cons d before ih =>
    rw [List.mem_cons, not_or] at h
    have hnot : ¬ [c].isPrefixOf (d :: (before ++ c :: behind)) = true := by
      simpa using h.1
    rw [List.cons_append, cut?, if_neg hnot, ih h.2]
    rfl

/-- What ends a text also ends it without a beginning of another kind. -/
theorem getLast?_dropWhile (kind : Char → Bool) {c : Char} (hc : kind c = false)
    (text : List Char) : (text.dropWhile kind).getLast? = some c ↔ text.getLast? = some c := by
  conv_rhs => rw [← List.takeWhile_append_dropWhile (p := kind) (l := text)]
  rw [List.getLast?_append]
  cases hrest : (text.dropWhile kind).getLast? with
  | some d => simp
  | none =>
    simp only [reduceCtorEq, Option.none_or, false_iff]
    intro hlast
    have hkind := List.mem_takeWhile_imp (List.mem_of_getLast? hlast)
    rw [hc] at hkind
    cases hkind

section Occurrences

variable {pattern replacement text rest : List Char} {c : Char}

/-- The pattern occurs in a text of which it is a part. -/
theorem occurs_iff : occurs pattern text = true ↔ pattern <:+: text := by
  rw [occurs, Option.isSome_iff_exists]
  constructor
  · rintro ⟨⟨before, after⟩, h⟩
    exact ⟨before, after, (cut?_eq_some h).symm⟩
  · intro h
    induction text with
    | nil => exact ⟨([], []), by rw [cut?, if_pos (List.eq_nil_of_infix_nil h)]⟩
    | cons c rest ih =>
      rw [cut?]
      split_ifs with hbegins
      · exact ⟨_, rfl⟩
      · rcases List.infix_cons_iff.mp h with hhere | hlater
        · exact absurd (List.isPrefixOf_iff_prefix.mpr hhere) hbegins
        · obtain ⟨⟨before, after⟩, hcut⟩ := ih hlater
          exact ⟨(c :: before, after), by rw [hcut]; rfl⟩

/-! ## Moves -/

theorem replaceFrom_eq_drop : ∀ (skip : ℕ) (text : List Char),
    replaceFrom pattern replacement skip text =
      replaceFrom pattern replacement 0 (text.drop skip) := by
  intro skip
  induction skip with
  | zero => intro text; rfl
  | succ skip ih =>
    intro text
    cases text with
    | nil => rfl
    | cons c rest => rw [replaceFrom, ih, List.drop_succ_cons]

/-- At an occurrence the replacement goes on behind it. -/
theorem replaceAll_append (h : pattern ≠ []) :
    replaceAll pattern replacement (pattern ++ rest) =
      replacement ++ replaceAll pattern replacement rest := by
  cases pattern with
  | nil => exact absurd rfl h
  | cons c pattern =>
    have hhere : (c :: pattern).isPrefixOf (c :: (pattern ++ rest)) = true :=
      List.isPrefixOf_iff_prefix.mpr (List.prefix_append (c :: pattern) rest)
    rw [replaceAll, List.cons_append, replaceFrom, if_pos hhere, replaceFrom_eq_drop,
      List.length_cons, Nat.add_sub_cancel, List.drop_left, replaceAll]

/-- A character where no occurrence begins is kept. -/
theorem replaceAll_cons (h : ¬ pattern <+: c :: rest) :
    replaceAll pattern replacement (c :: rest) = c :: replaceAll pattern replacement rest := by
  rw [← List.isPrefixOf_iff_prefix] at h
  rw [replaceAll, replaceFrom, if_neg h, replaceAll]

/-- A part in which no occurrence begins is kept. -/
theorem replaceAll_of_not_begins : ∀ {part : List Char},
    (∀ before c after, part = before ++ c :: after → ¬ pattern <+: c :: (after ++ rest)) →
    replaceAll pattern replacement (part ++ rest) =
      part ++ replaceAll pattern replacement rest := by
  intro part
  induction part with
  | nil => intro _; rfl
  | cons c part ih =>
    intro h
    have hlater := ih fun before d after hpart => h (c :: before) d after (by rw [hpart]; rfl)
    rw [List.cons_append, replaceAll_cons (h [] c part rfl), hlater, List.cons_append]

/-- A text without one of the characters of the pattern is kept. -/
theorem replaceAll_of_not_mem (hc : c ∈ pattern) (h : c ∉ text) :
    replaceAll pattern replacement text = text := by
  have hkept : replaceAll pattern replacement (text ++ []) =
      text ++ replaceAll pattern replacement [] := by
    refine replaceAll_of_not_begins fun before d after htext hhere => h ?_
    rw [List.append_nil] at hhere
    rw [htext]
    exact List.mem_append_right before (hhere.subset hc)
  have hend : replaceAll pattern replacement [] = [] := rfl
  rwa [List.append_nil, hend, List.append_nil] at hkept

/-- A single character is replaced wherever it stands. -/
theorem replaceAll_singleton (c : Char) (replacement text : List Char) :
    replaceAll [c] replacement text =
      text.flatMap fun d => if d = c then replacement else [d] := by
  induction text with
  | nil => rfl
  | cons d text ih =>
    rw [List.flatMap_cons, ← ih]
    split_ifs with hsame
    · rw [hsame]
      exact replaceAll_append (List.cons_ne_nil c [])
    · exact replaceAll_cons fun h => hsame (List.cons_prefix_cons.mp h).1.symm

end Occurrences

end DataContract.Text
