import DataContract.Proofs.TypeExpr.Reading
import DataContract.TypeExpr.Form

/-!
# The type expressions that a text can spell

Not every expression has a text: a name must be a run of name characters, and `void` alone is no
name.  The expressions that obey this are exactly those that are read from some text, and their
canonical text is read back as the expression itself.  So the canonical text tells two of them
apart, which is what makes it fit for an identity.

Results:

* `exists_phrase`: the canonical text of a well-formed expression is derived by the grammar.
* `parse_render`: the canonical text of a well-formed expression is read back.
* `wellFormed_iff_parse`: the well-formed expressions are those that a text spells.
* `render_inj`: well-formed expressions with one canonical text are equal.
* `WellFormed.substitute`, `WellFormed.of_mem_components`: what is made of well-formed expressions
  is well formed.
-/

namespace DataContract.TypeExpr

/-! ## Well-formed expressions -/

mutual

/-- The names are runs of name characters, and none without arguments is the word for `void`. -/
def WellFormed : TypeExpr → Prop
  | .void => True
  | .array element => element.WellFormed
  | .named name args => IsName name ∧ (args = [] → name ≠ "void") ∧ AllWellFormed args

/-- All expressions of a list are well formed. -/
def AllWellFormed : List TypeExpr → Prop
  | [] => True
  | arg :: args => arg.WellFormed ∧ AllWellFormed args

end

theorem allWellFormed_iff {args : List TypeExpr} :
    AllWellFormed args ↔ ∀ arg ∈ args, arg.WellFormed := by
  induction args with
  | nil => simp [AllWellFormed]
  | cons arg args ih => simp [AllWellFormed, ih]

theorem wellFormed_named {name : String} {args : List TypeExpr} :
    (TypeExpr.named name args).WellFormed ↔
      IsName name ∧ (args = [] → name ≠ "void") ∧ ∀ arg ∈ args, arg.WellFormed := by
  rw [WellFormed, allWellFormed_iff]

theorem isName_nullable : IsName "Nullable" := by decide +kernel

theorem WellFormed.nullable {inner : TypeExpr} (h : inner.WellFormed) :
    inner.nullable.WellFormed := by
  rw [TypeExpr.nullable, wellFormed_named]
  refine ⟨isName_nullable, by simp, ?_⟩
  intro arg harg
  rw [List.mem_singleton] at harg
  rw [harg]
  exact h

/-! ## Whatever is derived is well formed -/

theorem wellFormed_applied {name : String} {args : List TypeExpr} (hname : IsName name)
    (hargs : AllWellFormed args) : (applied name args).WellFormed := by
  rw [applied]
  split_ifs with h
  · trivial
  · exact ⟨hname, fun hnil hvoid => h ⟨hvoid, hnil⟩, hargs⟩

theorem WellFormed.wrap {t : TypeExpr} (h : t.WellFormed) (s : Suffix) : (s.wrap t).WellFormed := by
  cases s with
  | array gap inner => exact h
  | nullable gap => exact h.nullable

theorem WellFormed.foldl_wrap (suffixes : List Suffix) {t : TypeExpr} (h : t.WellFormed) :
    (suffixes.foldl Suffix.wrap t).WellFormed := by
  induction suffixes generalizing t with
  | nil => exact h
  | cons s suffixes ih => exact ih (h.wrap s)

mutual

theorem Phrase.wellFormed : ∀ p : Phrase, p.tree.WellFormed
  | ⟨_, name, arguments, suffixes⟩ =>
    (wellFormed_applied name.2 arguments.wellFormed).foldl_wrap suffixes

theorem Arguments.wellFormed : ∀ a : Arguments, AllWellFormed a.trees
  | .none => trivial
  | .list _ first more => ⟨first.wellFormed, more.wellFormed⟩

theorem MoreArguments.wellFormed : ∀ m : MoreArguments, AllWellFormed m.trees
  | .close _ => trivial
  | .comma _ next more => ⟨next.wellFormed, more.wellFormed⟩

end

/-- Whatever is read from a text is well formed. -/
theorem WellFormed.of_parse {text : String} {t : TypeExpr} (h : parse text = .ok t) :
    t.WellFormed := by
  rcases parse_eq_ok_iff.mp h with ⟨-, rfl⟩ | ⟨s, -, rfl⟩
  · trivial
  · exact s.type.wellFormed

/-! ## The canonical text is derived -/

/-- The type with a space before it. -/
def Phrase.spaced (p : Phrase) : Phrase :=
  { p with gap := ⟨' ' :: p.gap.1, by
      intro c hc
      rcases List.mem_cons.mp hc with rfl | hc
      · rfl
      · exact p.gap.2 c hc⟩ }

theorem Phrase.text_spaced (p : Phrase) : p.spaced.text = ' ' :: p.text := by
  cases p
  rfl

theorem Phrase.tree_spaced (p : Phrase) : p.spaced.tree = p.tree := by
  cases p
  rfl

mutual

/-- The canonical text of a well-formed expression is that of a derivation. -/
theorem exists_phrase : ∀ t : TypeExpr, t.WellFormed →
    ∃ p : Phrase, p.text = t.render.toList ∧ p.tree = t
  | .void, _ =>
    ⟨⟨⟨[], by simp⟩, ⟨"void", by decide +kernel⟩, .none, []⟩, rfl, rfl⟩
  | .array element, h => by
    obtain ⟨p, htext, htree⟩ := exists_phrase element h
    refine ⟨p.concat (.array ⟨[], by simp⟩ ⟨[], by simp⟩), ?_, ?_⟩
    · simp [htext, Suffix.text, render]
    · rw [Phrase.tree_concat, htree]
      rfl
  | .named n [], h => by
    obtain ⟨hname, hvoid, -⟩ := h
    refine ⟨⟨⟨[], by simp⟩, ⟨n, hname⟩, .none, []⟩, ?_, ?_⟩
    · simp [Phrase.text, Arguments.text, render]
    · simp [Phrase.tree, Arguments.trees, applied, hvoid rfl]
  | .named n (arg :: args), h => by
    obtain ⟨hname, -, harg, hargs⟩ := h
    obtain ⟨p, htext, htree⟩ := exists_phrase arg harg
    obtain ⟨m, hmore, htrees⟩ := exists_moreArguments args hargs
    refine ⟨⟨⟨[], by simp⟩, ⟨n, hname⟩, .list ⟨[], by simp⟩ p m, []⟩, ?_, ?_⟩
    · simp [Phrase.text, Arguments.text, htext, hmore, render]
    · simp [Phrase.tree, Arguments.trees, applied, htree, htrees]

theorem exists_moreArguments : ∀ args : List TypeExpr, AllWellFormed args →
    ∃ m : MoreArguments, m.text = (renderRest args).toList ++ ['>'] ∧ m.trees = args
  | [], _ => ⟨.close ⟨[], by simp⟩, rfl, rfl⟩
  | arg :: args, h => by
    obtain ⟨p, htext, htree⟩ := exists_phrase arg h.1
    obtain ⟨m, hmore, htrees⟩ := exists_moreArguments args h.2
    refine ⟨.comma ⟨[], by simp⟩ p.spaced m, ?_, ?_⟩
    · simp [MoreArguments.text, Phrase.text_spaced, htext, hmore, renderRest]
    · rw [MoreArguments.trees, Phrase.tree_spaced, htree, htrees]

end

/-- The canonical text of a well-formed expression is read back. -/
theorem parse_render {t : TypeExpr} (ht : t.WellFormed) : parse t.render = .ok t := by
  obtain ⟨p, htext, htree⟩ := exists_phrase t ht
  exact parse_eq_ok_iff.mpr (Or.inr ⟨⟨p, ⟨[], by simp⟩⟩, by simp [Sentence.text, htext], htree⟩)

/-- The well-formed expressions are those that a text spells. -/
theorem wellFormed_iff_parse {t : TypeExpr} : t.WellFormed ↔ ∃ text, parse text = .ok t :=
  ⟨fun h => ⟨t.render, parse_render h⟩, fun ⟨_, h⟩ => .of_parse h⟩

/-- Well-formed expressions with one canonical text are equal. -/
theorem render_inj {t u : TypeExpr} (ht : t.WellFormed) (hu : u.WellFormed)
    (h : t.render = u.render) : t = u := by
  have hread : parse t.render = parse u.render := by rw [h]
  rw [parse_render ht, parse_render hu] at hread
  exact Except.ok.inj hread

/-! ## What is made of well-formed expressions -/

theorem WellFormed.of_argumentFor {params : List String} {args : List TypeExpr} {name : String}
    {arg : TypeExpr} (hargs : ∀ a ∈ args, a.WellFormed)
    (h : argumentFor? params args name = some arg) : arg.WellFormed := by
  obtain ⟨i, -, hi⟩ := Option.bind_eq_some_iff.mp h
  exact hargs arg (List.mem_of_getElem? hi)

mutual

theorem WellFormed.substitute {params : List String} {args : List TypeExpr}
    (hargs : ∀ a ∈ args, a.WellFormed) :
    ∀ t : TypeExpr, t.WellFormed → (t.substitute params args).WellFormed
  | .void, _ => by rw [TypeExpr.substitute]; trivial
  | .array element, ht => by
    rw [TypeExpr.substitute]
    exact WellFormed.substitute hargs element ht
  | .named n [], ht => by
    rw [TypeExpr.substitute]
    cases harg : argumentFor? params args n with
    | none => exact ht
    | some arg => exact WellFormed.of_argumentFor hargs harg
  | .named n (own :: more), ht => by
    obtain ⟨hname, -, hown, hmore⟩ := ht
    rw [TypeExpr.substitute]
    exact ⟨hname, by simp, WellFormed.substitute hargs own hown,
      AllWellFormed.substituteAll hargs more hmore⟩

theorem AllWellFormed.substituteAll {params : List String} {args : List TypeExpr}
    (hargs : ∀ a ∈ args, a.WellFormed) :
    ∀ own : List TypeExpr, AllWellFormed own →
      AllWellFormed (TypeExpr.substituteAll params args own)
  | [], _ => trivial
  | own :: more, h =>
    ⟨WellFormed.substitute hargs own h.1, AllWellFormed.substituteAll hargs more h.2⟩

end

theorem components_of_void {t : TypeExpr} (h : t.form = .void) : t.components = [] := by
  rw [components]; split <;> simp_all

theorem components_of_scalar {t : TypeExpr} {kind : Scalar} {numeric : Bool}
    (h : t.form = .scalar kind numeric) : t.components = [] := by
  rw [components]; split <;> simp_all

theorem components_of_nullable {t inner : TypeExpr} (h : t.form = .nullable inner) :
    t.components = inner.components := by
  rw [components]; split <;> simp_all

theorem components_of_sequence {t inner : TypeExpr} (h : t.form = .sequence inner) :
    t.components = inner.components := by
  rw [components]; split <;> simp_all

theorem components_of_map {t key value : TypeExpr} (h : t.form = .map key value) :
    t.components = key.components ++ value.components := by
  rw [components]; split <;> simp_all

theorem components_of_declared {t : TypeExpr} (h : t.form = .declared) : t.components = [t] := by
  rw [components]; split <;> simp_all

/-- What a form wraps stands directly in the expression. -/
theorem parts_of_mem_inner {t u : TypeExpr} (hu : u ∈ t.form.inner) :
    t = .array u ∨ ∃ name args, t = .named name args ∧ u ∈ args := by
  cases t with
  | void => simp [form, Form.inner] at hu
  | array element =>
    left
    rw [form] at hu
    split_ifs at hu
    · simp [Form.inner] at hu
    · simp only [Form.inner, List.mem_singleton] at hu
      rw [hu]
  | named name args =>
    refine Or.inr ⟨name, args, rfl, ?_⟩
    rw [form] at hu
    split at hu
    · simp [Form.inner] at hu
    · unfold builtinForm at hu
      split at hu
      · split at hu <;> simp [Form.inner] at hu
      · split_ifs at hu <;> simp_all [Form.inner]
      · split_ifs at hu <;> simp_all [Form.inner]
      · simp [Form.inner] at hu

theorem WellFormed.of_mem_inner {t u : TypeExpr} (ht : t.WellFormed) (hu : u ∈ t.form.inner) :
    u.WellFormed := by
  rcases parts_of_mem_inner hu with rfl | ⟨name, args, rfl, harg⟩
  · exact ht
  · exact (wellFormed_named.mp ht).2.2 u harg

/-- The types that a well-formed expression wraps are well formed. -/
theorem WellFormed.of_mem_components {t u : TypeExpr} (ht : t.WellFormed)
    (hu : u ∈ t.components) : u.WellFormed := by
  induction t using components.induct with
  | case1 t h => rw [components_of_void h] at hu; cases hu
  | case2 t kind numeric h => rw [components_of_scalar h] at hu; cases hu
  | case3 t inner h ih =>
    rw [components_of_nullable h] at hu
    exact ih (ht.of_mem_inner (by simp [h, Form.inner])) hu
  | case4 t inner h ih =>
    rw [components_of_sequence h] at hu
    exact ih (ht.of_mem_inner (by simp [h, Form.inner])) hu
  | case5 t key value h ihkey ihvalue =>
    rw [components_of_map h, List.mem_append] at hu
    rcases hu with hu | hu
    · exact ihkey (ht.of_mem_inner (by simp [h, Form.inner])) hu
    · exact ihvalue (ht.of_mem_inner (by simp [h, Form.inner])) hu
  | case6 t h =>
    rw [components_of_declared h, List.mem_singleton] at hu
    rw [hu]
    exact ht

end DataContract.TypeExpr
