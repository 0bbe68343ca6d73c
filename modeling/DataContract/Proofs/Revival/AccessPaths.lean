import DataContract.Proofs.Text.Identifier
import DataContract.Revival.Code

/-!
# What the access to a member tells

A value is reached from a name over the properties of objects.  A property that is an identifier
stands behind a dot, any other one between brackets and quotes.  From the text both the name and the
properties can be told, whatever a property is called: an identifier ends where an access begins,
and a quoted property at the first quote without a backslash.

Results:

* `toList_code_access`: the text is that of the name and of each access.
* `accessor_append_inj`: where an access ends.
* `access_code_inj`: the text tells the name and the properties.
-/

namespace DataContract.Revival

open Text (isIdentifier isIdentifierChar readQuoted replaceAll)

/-- What is reached from a name over some properties. -/
def access (root : String) (properties : List String) : Revival :=
  properties.foldl .member (.value root)

/-- What is written behind an object for one of its members. -/
def accessor (property : String) : List Char :=
  if isIdentifier property then '.' :: property.toList
  else '[' :: '"' :: ((Text.escaped property).toList ++ ['"', ']'])

theorem code_value (name : String) : (value name).code = name := rfl

theorem code_member (object : Revival) (property : String) :
    (member object property).code = memberAccess object.code property := rfl

theorem toList_code_member (object : Revival) (property : String) :
    (member object property).code.toList = object.code.toList ++ accessor property := by
  rw [code_member, memberAccess, accessor]
  split_ifs <;> simp [Text.quoted]

/-- The text is that of the name and of each access. -/
theorem toList_code_access (root : String) (properties : List String) :
    (access root properties).code.toList = root.toList ++ properties.flatMap accessor := by
  induction properties using List.reverseRecOn with
  | nil => simp [access, code_value]
  | append_singleton properties property ih =>
    have hlast : access root (properties ++ [property]) =
        member (access root properties) property := List.foldl_concat ..
    rw [hlast, toList_code_member, ih, List.flatMap_append, List.flatMap_singleton,
      List.append_assoc]

/-! ## Where an access ends -/

section Accessors

variable {property property' : String} {properties properties' : List String}

/-- No access begins like the rest of an identifier. -/
theorem head?_accessors (properties : List String) :
    ∀ c ∈ (properties.flatMap accessor).head?, isIdentifierChar c = false := by
  intro c hc
  cases properties with
  | nil => cases hc
  | cons property properties =>
    rw [List.flatMap_cons, accessor] at hc
    split_ifs at hc
    · cases hc
      decide
    · cases hc
      decide

/-- Of two accesses that go on with others, neither is the beginning of the other. -/
theorem accessor_append_inj
    (h : accessor property ++ properties.flatMap accessor =
      accessor property' ++ properties'.flatMap accessor) :
    property = property' ∧ properties.flatMap accessor = properties'.flatMap accessor := by
  rw [accessor, accessor] at h
  split_ifs at h with hname hname' hname'
  · obtain ⟨-, h⟩ := List.cons.inj h
    obtain ⟨hsame, hrest⟩ := Text.append_inj_of_kind (Text.isWord_of_isIdentifier hname)
      (Text.isWord_of_isIdentifier hname') (head?_accessors properties)
      (head?_accessors properties') h
    exact ⟨String.toList_inj.mp hsame, hrest⟩
  · exact absurd (List.cons.inj h).1 (by decide)
  · exact absurd (List.cons.inj h).1 (by decide)
  · -- both are read as quoted properties
    simp only [List.cons_append, List.append_assoc, List.nil_append, List.cons.injEq,
      true_and] at h
    have hread := congrArg readQuoted h
    rw [Text.readQuoted_escaped, Text.readQuoted_escaped] at hread
    obtain ⟨hsame, hrest⟩ := Prod.mk.inj (Option.some.inj hread)
    exact ⟨String.toList_inj.mp hsame, (List.cons.inj hrest).2⟩

theorem accessors_inj (h : properties.flatMap accessor = properties'.flatMap accessor) :
    properties = properties' := by
  have hne : ∀ property rest, accessor property ++ rest ≠ [] := by
    intro property rest
    rw [accessor]
    split_ifs <;> exact List.cons_ne_nil _ _
  induction properties generalizing properties' with
  | nil =>
    cases properties' with
    | nil => rfl
    | cons property' properties' => exact absurd h.symm (hne property' _)
  | cons property properties ih =>
    cases properties' with
    | nil => exact absurd h (hne property _)
    | cons property' properties' =>
      rw [List.flatMap_cons, List.flatMap_cons] at h
      obtain ⟨rfl, hrest⟩ := accessor_append_inj h
      rw [ih hrest]

end Accessors

/-! ## Names and properties -/

/-- From identifiers the same text leads only where they and all properties are the same, whatever
the properties are called.  A property that is no identifier is written with backslashes doubled and
quotes behind backslashes; read from the opening quote on, where a backslash makes the next
character part of the name, it ends at the closing quote and is the property. -/
theorem access_code_inj {root root' : String} (hroot : isIdentifier root = true)
    (hroot' : isIdentifier root' = true) (properties properties' : List String) :
    ((access root properties).code = (access root' properties').code ↔
      root = root' ∧ properties = properties') ∧
    ∀ (object : Revival) (property : String), isIdentifier property = false →
      let key := replaceAll ['"'] ['\\', '"'] (replaceAll ['\\'] ['\\', '\\'] property.toList)
      (member object property).code.toList =
          object.code.toList ++ ('[' :: '"' :: (key ++ ['"', ']'])) ∧
        ∀ rest, readQuoted (key ++ '"' :: rest) = some (property.toList, rest) := by
  refine ⟨⟨fun h => ?_, by rintro ⟨rfl, rfl⟩; rfl⟩, ?_⟩
  · have htext := congrArg String.toList h
    rw [toList_code_access, toList_code_access] at htext
    obtain ⟨hsame, haccessors⟩ := Text.append_inj_of_kind (Text.isWord_of_isIdentifier hroot)
      (Text.isWord_of_isIdentifier hroot') (head?_accessors properties)
      (head?_accessors properties') htext
    exact ⟨String.toList_inj.mp hsame, accessors_inj haccessors⟩
  · intro object property hproperty key
    have hkey : (Text.escaped property).toList = key := Text.escaped_eq_replaceAll property
    refine ⟨?_, fun rest => ?_⟩
    · rw [toList_code_member, accessor, if_neg (by simp [hproperty]), hkey]
    · rw [← hkey]
      exact Text.readQuoted_escaped property rest

/-- A name with a dot in it would be taken for a property. -/
example : (access "data.items" []).code = (access "data" ["items"]).code := by decide +kernel

/-- A property whose name looks like the end of one access and the beginning of another. -/
theorem brackets_told_apart :
    let forged := "first\"][\"last\\"
    (isIdentifier "data" = true ∧ isIdentifier forged = false) ∧
      (access "data" [forged]).code ≠ (access "data" ["first", "last\\"]).code ∧
      readQuoted "first\\\"][\\\"last\\\\\"]".toList = some (forged.toList, [']']) := by
  intro forged
  have hdata : isIdentifier "data" = true := by decide +kernel
  have hforged : isIdentifier forged = false := by decide +kernel
  have htold := access_code_inj hdata hdata [forged] ["first", "last\\"]
  refine ⟨⟨hdata, hforged⟩, fun h => ?_, ?_⟩
  · exact absurd (htold.1.mp h).2 (by decide)
  · have hread := (htold.2 (.value "data") forged hforged).2 [']']
    rw [← hread]
    decide +kernel

end DataContract.Revival
