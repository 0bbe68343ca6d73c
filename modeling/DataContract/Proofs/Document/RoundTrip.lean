import DataContract.Document.Encode
import DataContract.Proofs.Document.WellFormed
import DataContract.Proofs.Keyed.Merging

/-!
# Documents that are written and read again

What has been read from a text is written with every field in its place, and reading that gives it
back.  For each decoder of a value there is a way to write it; a record is read back because its
fields are written in the order in which they are looked for, and a document because its types have
distinct names.

Results:

* `Decoder.ReadsBack`: what is written of a value is read as that value.
* `Decoder.fromMembers_of_readsInTurn`: a record is read back field by field.
* `Document.readsBack_document`: a document that can be stored is read back.
* `Document.storable_iff`: the documents that can be stored are those that are read.
* `Document.decode_encode_of_decode`: what has been read is read back.
-/

namespace DataContract

/-! ## Values that are read whole -/

namespace Json

variable {α : Type}

theorem depthItems_map_le {write : α → Json} {bound : ℕ} {values : List α}
    (h : ∀ value ∈ values, (write value).depth ≤ bound) :
    depthItems (values.map write) ≤ bound := by
  induction values with
  | nil => exact Nat.zero_le bound
  | cons value values ih =>
    have hfirst := h value (by simp)
    have hrest := ih fun other hother => h other (by simp [hother])
    rw [List.map_cons, depthItems]
    omega

theorem depth_array_map_le {write : α → Json} {bound : ℕ} (values : List α)
    (h : ∀ value, (write value).depth ≤ bound) :
    (Json.array (values.map write)).depth ≤ bound + 1 := by
  rw [depth]
  have hitems : depthItems (values.map write) ≤ bound := depthItems_map_le fun value _ => h value
  omega

theorem depth_elim_le {write : α → Json} {bound : ℕ} (found : Option α)
    (h : ∀ value, (write value).depth ≤ bound) : (found.elim .null write).depth ≤ bound := by
  cases found with
  | none => simp [depth]
  | some value => exact h value

theorem depth_string_le (text : String) : (Json.string text).depth ≤ 0 := by simp [depth]

end Json

namespace Source

mutual

/-- The text of a value that is not nested too deeply has no flaw when all of it is read. -/
theorem flawReading?_ofJson (value : Json) {level : ℕ} (h : level + value.depth < tooDeep) :
    (ofJson value).flawReading? level = none := by
  cases value with
  | null | bool | number | string => rw [ofJson]; rfl
  | array items =>
    rw [Json.depth] at h
    rw [ofJson, flawReading?, if_neg (by omega)]
    exact flawReading?_ofItems items (by omega)
  | object members =>
    rw [Json.depth] at h
    rw [ofJson, flawReading?, if_neg (by omega)]
    exact flawReading?_ofMembers members (by omega)

/-- The text of items that are not nested too deeply has no flaw when all of it is read. -/
theorem flawReading?_ofItems (items : List Json) {level : ℕ}
    (h : level + Json.depthItems items < tooDeep) : (ofItems items).flawReading? level = none := by
  cases items with
  | nil => rw [ofItems]; rfl
  | cons item items =>
    rw [Json.depthItems] at h
    rw [ofItems, Items.flawReading?, flawReading?_ofJson item (by omega),
      flawReading?_ofItems items (by omega)]
    rfl

/-- The text of members that are not nested too deeply has no flaw when all of it is read. -/
theorem flawReading?_ofMembers (members : List (String × Json)) {level : ℕ}
    (h : level + Json.depthMembers members < tooDeep) :
    (ofMembers members).flawReading? level = none := by
  match members with
  | [] => rw [ofMembers]; rfl
  | (name, value) :: members =>
    rw [Json.depthMembers] at h
    rw [ofMembers, Members.flawReading?, flawReading?_ofJson value (by omega),
      flawReading?_ofMembers members (by omega)]
    rfl

end

end Source

/-! ## Values that are read back -/

namespace Decoder

open Document (Error)

variable {α β : Type} {P : α → Prop}

/-- What is written of a value with the property is read as that value. -/
def ReadsBack (read : Decoder α) (write : α → Json) (P : α → Prop) : Prop :=
  ∀ value, P value → read (.ofJson (write value)) = .ok value

theorem readsBack_text : ReadsBack text .string fun _ => True := by
  intro value _
  rw [Source.ofJson]
  rfl

theorem readsBack_flag : ReadsBack flag .bool fun _ => True := by
  intro value _
  rw [Source.ofJson]
  rfl

theorem readsBack_integer : ReadsBack integer .ofInt fun value => Text.isSigned64 value = true := by
  intro value hvalue
  rw [Json.ofInt, Source.ofJson]
  show (if Text.isSigned64 value = true then _ else _) = _
  rw [if_pos hvalue]

/-- The canonical text of a well-formed expression is read as that expression. -/
theorem readsBack_typeExpr : ReadsBack typeExpr TypeExpr.encode TypeExpr.WellFormed := by
  intro t ht
  rw [TypeExpr.encode, Source.ofJson]
  show (TypeExpr.parse t.render).mapError _ = _
  rw [TypeExpr.parse_render ht]
  rfl

/-- Null stands for no value, so a value must not be written as null. -/
theorem ReadsBack.optional {read : Decoder α} {write : α → Json} (h : ReadsBack read write P)
    (hnull : ∀ value, write value ≠ .null) :
    ReadsBack (optional read) (fun found => found.elim .null write)
      fun found => ∀ value ∈ found, P value := by
  intro found hfound
  cases found with
  | none =>
    show Decoder.optional read (.ofJson .null) = _
    rw [Source.ofJson]
    rfl
  | some value =>
    have hread := h value (hfound value rfl)
    show Decoder.optional read (.ofJson (write value)) = _
    -- What is written of a value is not null, so it does not pass for no value.
    have hsome : Decoder.optional read (.ofJson (write value)) =
        some <$> read (.ofJson (write value)) := by
      unfold Decoder.optional
      split
      · rename_i hsource
        cases hwrite : write value <;> rw [hwrite, Source.ofJson] at hsource <;> cases hsource
        exact absurd hwrite (hnull value)
      · rfl
    rw [hsome, hread]
    rfl

theorem readsBack_text? : ReadsBack (Decoder.optional text) .ofString? fun _ => True := by
  intro found _
  exact readsBack_text.optional (fun _ => Json.noConfusion) found fun _ _ => trivial

theorem ReadsBack.items {read : Decoder α} {write : α → Json} (h : ReadsBack read write P)
    {values : List α} (hvalues : ∀ value ∈ values, P value) :
    items read (Source.ofItems (values.map write)) = .ok values := by
  induction values with
  | nil =>
    rw [List.map_nil, Source.ofItems]
    rfl
  | cons value values ih =>
    have hfirst := h value (hvalues value (by simp))
    have hrest := ih fun other hother => hvalues other (by simp [hother])
    rw [List.map_cons, Source.ofItems, Decoder.items, hfirst, hrest]
    rfl

theorem ReadsBack.list {read : Decoder α} {write : α → Json} (h : ReadsBack read write P) :
    ReadsBack (list read) (fun values => .array (values.map write))
      fun values => ∀ value ∈ values, P value := by
  intro values hvalues
  rw [Source.ofJson]
  exact h.items hvalues

/-- A word is read back when it is listed with its own meaning. -/
theorem readsBack_word {words : List (String × α)} {spell : α → String}
    (h : ∀ value, words.lookup (spell value) = some value) :
    ReadsBack (word words) (fun value => .string (spell value)) fun _ => True := by
  intro value _
  rw [Source.ofJson]
  show meaning words ⟨spell value, true⟩ = _
  simp [meaning, literalText, h, bind, Except.bind, pure, Except.pure]

/-! ## Records that are read back -/

/-- The members are the values of the fields, one after the other, and reading them takes the one
record to the other. -/
inductive ReadsInTurn : List (RecordField α) → List (String × Json) → α → α → Prop where
  | nil {record : α} : ReadsInTurn [] [] record record
  | optional {β : Type} {name : String} {read : Decoder β} {put : β → α → α} {value : Json} {b : β}
      {fields : List (RecordField α)} {members : List (String × Json)} {record final : α} :
      read (.ofJson value) = .ok b → ReadsInTurn fields members (put b record) final →
      ReadsInTurn (field name read put :: fields) ((name, value) :: members) record final
  | required {β : Type} {name : String} {read : Decoder β} {put : β → α → α} {value : Json} {b : β}
      {fields : List (RecordField α)} {members : List (String × Json)} {record final : α} :
      read (.ofJson value) = .ok b → ReadsInTurn fields members (put b record) final →
      ReadsInTurn (required (field name read put) :: fields) ((name, value) :: members) record final

theorem ReadsInTurn.map_fst {fields : List (RecordField α)} {members : List (String × Json)}
    {record final : α} (h : ReadsInTurn fields members record final) :
    members.map (·.1) = fields.map (·.name) := by
  induction h with
  | nil => rfl
  | optional _ _ ih => exact congrArg _ ih
  | required _ _ ih => exact congrArg _ ih

/-- The value of the first field that is missing is read into the record. -/
theorem fromMembers_first {fields rest : List (RecordField α)} {f : RecordField α} {value : Json}
    {members : List (String × Json)} {record next : α}
    (hread : f.read (.ofJson value) record = .ok next)
    (hnodup : ((f :: rest).map (·.name)).Nodup) :
    fromMembers fields (f :: rest) record (Source.ofMembers ((f.name, value) :: members)) =
      fromMembers fields rest next (Source.ofMembers members) := by
  have hfind : (f :: rest).find? (·.name == f.name) = some f := by simp
  have hleft : (f :: rest).filter (·.name != f.name) = rest := by
    rw [List.filter_cons_of_neg (by simp), List.filter_eq_self]
    intro g hg
    have hne : g.name ≠ f.name := by
      intro heq
      have hmem : g.name ∈ rest.map (·.name) := List.mem_map_of_mem hg
      rw [heq] at hmem
      exact (List.nodup_cons.mp hnodup).1 hmem
    simpa using hne
  rw [Source.ofMembers, fromMembers]
  simp only [literalText, if_true, bind, Except.bind, hfind, hread, hleft]

/-- A record is read back field by field, if no two fields have one name. -/
theorem fromMembers_of_readsInTurn {fields missing : List (RecordField α)}
    {members : List (String × Json)} {record final : α}
    (h : ReadsInTurn missing members record final) (hnodup : (missing.map (·.name)).Nodup) :
    fromMembers fields missing record (Source.ofMembers members) = .ok final := by
  induction h with
  | nil =>
    rw [Source.ofMembers]
    rfl
  | @optional β name read put value b _ _ record _ hread _ ih =>
    have hput : (field name read put).read (.ofJson value) record = .ok (put b record) := by
      show (put · record) <$> read (.ofJson value) = _
      rw [hread]
      rfl
    exact (fromMembers_first hput hnodup).trans (ih hnodup.of_cons)
  | @required β name read put value b _ _ record _ hread _ ih =>
    have hput : (required (field name read put)).read (.ofJson value) record =
        .ok (put b record) := by
      show (put · record) <$> read (.ofJson value) = _
      rw [hread]
      rfl
    exact (fromMembers_first hput hnodup).trans (ih hnodup.of_cons)

theorem record_of_readsInTurn {fields : List (RecordField α)} {members : List (String × Json)}
    {blank final : α} {surplus : Error} (h : ReadsInTurn fields members blank final)
    (hnodup : (fields.map (·.name)).Nodup) :
    Decoder.record fields blank surplus (.ofJson (.object members)) = .ok final := by
  rw [Source.ofJson]
  exact fromMembers_of_readsInTurn h hnodup

end Decoder

namespace Document

open Decoder

/-! ## Types -/

theorem readsBack_member : ReadsBack (record enumMemberFields {} .shape) EnumMember.encode
    fun m => Text.isSigned64 m.value = true := by
  intro m hm
  refine record_of_readsInTurn ?_ (by decide)
  exact .required (readsBack_text m.name trivial) <|
    .required (readsBack_integer m.value hm) .nil

theorem readsBack_property : ReadsBack (record propertyFields {} .shape) DeclaredProperty.encode
    fun p => p.type.WellFormed := by
  intro p hp
  refine record_of_readsInTurn ?_ (by decide)
  exact .required (readsBack_text p.name trivial) <|
    .required (readsBack_typeExpr p.type hp) <|
    .optional (readsBack_text? p.jsonName trivial) <|
    .optional (readsBack_flag p.jsonIgnore trivial) <|
    .optional (readsBack_text? p.typeOverride trivial) <|
    .optional (readsBack_text? p.reviver trivial) .nil

theorem depth_typeExpr_le (t : TypeExpr) : t.encode.depth ≤ 0 := Json.depth_string_le _

theorem depth_ofString?_le (text : Option String) : (Json.ofString? text).depth ≤ 0 :=
  Json.depth_elim_le text Json.depth_string_le

theorem depth_member_le (m : EnumMember) : m.encode.depth ≤ 1 := by
  simp [EnumMember.encode, Json.depth, Json.depthMembers, Json.ofInt]

theorem depth_property_le (p : DeclaredProperty) : p.encode.depth ≤ 1 := by
  have htype := depth_typeExpr_le p.type
  have hname := depth_ofString?_le p.jsonName
  have hshown := depth_ofString?_le p.typeOverride
  have hreviver := depth_ofString?_le p.reviver
  simp only [DeclaredProperty.encode, Json.depth, Json.depthMembers]
  omega

theorem splitKind_ofMembers {k : TypeKind} {members : List (String × Json)}
    (hname : kindName ∉ members.map (·.1)) (hdepth : ∀ m ∈ members, m.2.depth ≤ 2) :
    splitKind (some k) (Source.ofMembers members) = .ok (k, Source.ofMembers members) := by
  induction members with
  | nil =>
    rw [Source.ofMembers]
    rfl
  | cons m members ih =>
    obtain ⟨name, value⟩ := m
    rw [List.map_cons, List.mem_cons, not_or] at hname
    have hother : ¬ name = kindName := fun heq => hname.1 heq.symm
    have hvalue : value.depth ≤ 2 := hdepth (name, value) (by simp)
    have hlevel : declarationLevel + 2 < Source.tooDeep := by decide
    have hsound : (Source.ofJson value).flawReading? declarationLevel = none :=
      Source.flawReading?_ofJson value (by omega)
    have hrest := ih hname.2 fun other hother => hdepth other (by simp [hother])
    rw [Source.ofMembers, splitKind]
    simp only [literalText, if_true, bind, Except.bind, if_neg hother, hsound, sound, hrest]
    rfl

/-- The kind stands first, and values that are nested no deeper than properties are read whole. -/
theorem splitKind_encoded {kindWord : String} {k : TypeKind} {members : List (String × Json)}
    (hword : kindWords.lookup kindWord = some k) (hname : kindName ∉ members.map (·.1))
    (hdepth : ∀ m ∈ members, m.2.depth ≤ 2) :
    splitKind none (Source.ofMembers ((kindName, .string kindWord) :: members)) =
      .ok (k, Source.ofMembers members) := by
  have hkind : kind (.string ⟨kindWord, true⟩) = .ok k := by
    simp [kind, meaning, literalText, hword, bind, Except.bind, pure, Except.pure]
  rw [Source.ofMembers, Source.ofJson, splitKind]
  simp [literalText, bind, Except.bind, hkind, splitKind_ofMembers hname hdepth]

theorem declaredType_object {members : List (String × Json)} {decl : DeclaredObject}
    (h : ReadsInTurn objectFields members {} decl) (hdepth : ∀ m ∈ members, m.2.depth ≤ 2) :
    declaredType (.ofJson (.object ((kindName, .string "object") :: members))) =
      .ok (.object decl) := by
  have hname : kindName ∉ members.map (·.1) := by
    rw [h.map_fst]
    decide
  rw [Source.ofJson, declaredType, splitKind_encoded (k := .object) rfl hname hdepth]
  show DeclaredType.object <$> fromMembers objectFields objectFields {} _ = _
  rw [fromMembers_of_readsInTurn h (by decide)]
  rfl

theorem declaredType_enum {members : List (String × Json)} {decl : DeclaredEnum}
    (h : ReadsInTurn enumFields members {} decl) (hdepth : ∀ m ∈ members, m.2.depth ≤ 2) :
    declaredType (.ofJson (.object ((kindName, .string "enum") :: members))) =
      .ok (.enum decl) := by
  have hname : kindName ∉ members.map (·.1) := by
    rw [h.map_fst]
    decide
  rw [Source.ofJson, declaredType, splitKind_encoded (k := .enum) rfl hname hdepth]
  show DeclaredType.enum <$> fromMembers enumFields enumFields {} _ = _
  rw [fromMembers_of_readsInTurn h (by decide)]
  rfl

/-- The values of an enumeration's members are integers of 64 bits. -/
def SignedMembers (type : DeclaredType) : Prop :=
  ∀ decl, type = .enum decl → ∀ m ∈ decl.members, Text.isSigned64 m.value = true

theorem readsBack_declaredType : ReadsBack declaredType DeclaredType.encode
    fun type => type.WellFormed ∧ SignedMembers type := by
  rintro (decl | decl) ⟨hwf, hsigned⟩
  · obtain ⟨hbase, hinterface, hinheritor, hproperty⟩ := hwf decl rfl
    refine declaredType_object ?_ ?_
    · exact .optional (readsBack_text? decl.nameOverride trivial) <|
        .optional (readsBack_text.list decl.genericParams fun _ _ => trivial) <|
        .optional (readsBack_typeExpr.optional (fun _ => Json.noConfusion) decl.base hbase) <|
        .optional (readsBack_typeExpr.list decl.interfaces hinterface) <|
        .optional (readsBack_typeExpr.list decl.knownInheritors hinheritor) <|
        .optional (readsBack_property.list decl.properties hproperty) .nil
    · have hoverride := depth_ofString?_le decl.nameOverride
      have hbase := Json.depth_elim_le decl.base depth_typeExpr_le
      have hparams := Json.depth_array_map_le decl.genericParams Json.depth_string_le
      have hinterfaces := Json.depth_array_map_le decl.interfaces depth_typeExpr_le
      have hinheritors := Json.depth_array_map_le decl.knownInheritors depth_typeExpr_le
      have hproperties := Json.depth_array_map_le decl.properties depth_property_le
      simp only [List.mem_cons, List.not_mem_nil, or_false, forall_eq_or_imp, forall_eq]
      omega
  · refine declaredType_enum ?_ ?_
    · exact .optional (readsBack_text? decl.nameOverride trivial) <|
        .optional (readsBack_member.list decl.members (hsigned decl rfl)) .nil
    · have hoverride := depth_ofString?_le decl.nameOverride
      have hmembers := Json.depth_array_map_le decl.members depth_member_le
      simp only [List.mem_cons, List.not_mem_nil, or_false, forall_eq_or_imp, forall_eq]
      omega

/-- Types with distinct names are read back one after the other. -/
theorem declaredTypesOnto_ofMembers {entries : List (String × DeclaredType)} :
    ∀ {types : List (String × DeclaredType)}, ((types ++ entries).map (·.1)).Nodup →
      (∀ entry ∈ entries, entry.2.WellFormed ∧ SignedMembers entry.2) →
      declaredTypesOnto types (Source.ofMembers (entries.map fun (name, decl) =>
        (name, decl.encode))) = .ok (types ++ entries) := by
  induction entries with
  | nil =>
    intro types _ _
    rw [List.map_nil, Source.ofMembers, List.append_nil]
    rfl
  | cons entry entries ih =>
    obtain ⟨name, decl⟩ := entry
    intro types hnodup hentries
    have hread := readsBack_declaredType decl (hentries (name, decl) (by simp))
    have hfresh : name ∉ types.map (·.1) := by
      rw [List.map_append, List.map_cons] at hnodup
      exact fun hmem => List.disjoint_of_nodup_append hnodup hmem (by simp)
    have hsplit : types ++ (name, decl) :: entries = (types ++ [(name, decl)]) ++ entries := by
      simp
    -- Its name is new, so the type is added behind those that have been read.
    rw [hsplit] at hnodup ⊢
    rw [List.map_cons, Source.ofMembers, declaredTypesOnto]
    simp only [literalText, if_true, bind, Except.bind, hread, Keyed.set_of_not_mem hfresh]
    exact ih hnodup fun other hother => hentries other (by simp [hother])

theorem readsBack_declaredTypes : ReadsBack declaredTypes
    (fun types => .object (types.map fun (name, decl) => (name, decl.encode)))
    fun types => (types.map (·.1)).Nodup ∧
      ∀ entry ∈ types, entry.2.WellFormed ∧ SignedMembers entry.2 := by
  rintro types ⟨hnodup, htypes⟩
  rw [Source.ofJson]
  show declaredTypesOnto [] _ = .ok ([] ++ types)
  exact declaredTypesOnto_ofMembers hnodup htypes

/-! ## Operations and interfaces -/

theorem readsBack_param : ReadsBack (record paramFields {} surplusItem) DeclaredParameter.encode
    fun p => p.type.WellFormed := by
  have hword : ∀ source : ParameterSource, sourceWords.lookup source.word = some source := by
    intro source
    cases source <;> decide
  intro p hp
  refine record_of_readsInTurn ?_ (by decide)
  exact .required (readsBack_text p.name trivial) <|
    .required (readsBack_typeExpr p.type hp) <|
    .required (readsBack_word hword p.source trivial) <|
    .optional (readsBack_flag p.optional trivial) <|
    .optional (readsBack_flag p.binder trivial) .nil

theorem readsBack_operation : ReadsBack (record operationFields {} surplusItem)
    DeclaredOperation.encode DeclaredOperation.WellFormed := by
  have hword : ∀ method : HttpMethod, methodWords.lookup method.word = some method := by
    intro method
    cases method <;> decide
  intro op hop
  refine record_of_readsInTurn ?_ (by decide)
  exact .required (readsBack_text op.controller trivial) <|
    .optional (readsBack_text? op.action trivial) <|
    .required (readsBack_word hword op.method trivial) <|
    .required (readsBack_text op.route trivial) <|
    .optional (readsBack_text? op.routePrefix trivial) <|
    .optional (readsBack_param.list op.params hop.param) <|
    .optional (readsBack_typeExpr op.response hop.response) <|
    .optional (readsBack_text? op.description trivial) .nil

theorem readsBack_methodParam : ReadsBack (record methodParamFields {} surplusItem)
    DeclaredMethodParameter.encode fun p => p.type.WellFormed := by
  intro p hp
  refine record_of_readsInTurn ?_ (by decide)
  exact .required (readsBack_text p.name trivial) <|
    .required (readsBack_typeExpr p.type hp) .nil

theorem readsBack_method : ReadsBack (record methodFields {} surplusItem) DeclaredMethod.encode
    DeclaredMethod.WellFormed := by
  intro m hm
  refine record_of_readsInTurn ?_ (by decide)
  exact .required (readsBack_text m.name trivial) <|
    .optional (readsBack_methodParam.list m.params hm.param) <|
    .optional (readsBack_typeExpr m.returns hm.returns) .nil

theorem readsBack_interface : ReadsBack (record interfaceFields {} surplusItem)
    DeclaredInterface.encode fun i => ∀ m ∈ i.methods, m.WellFormed := by
  have hword : ∀ role : InterfaceRole, roleWords.lookup role.word = some role := by
    intro role
    cases role <;> decide
  intro i hi
  refine record_of_readsInTurn ?_ (by decide)
  exact .required (readsBack_text i.name trivial) <|
    .optional (readsBack_word hword i.role trivial) <|
    .optional (readsBack_method.list i.methods hi) .nil

/-! ## Documents -/

/-- The document can be written so that it is read back: its type expressions are well formed, its
types have distinct names, and the members of its enumerations have values of 64 bits. -/
structure Storable (document : Document) : Prop where
  wellFormed : document.WellFormed
  distinct : (document.types.map (·.1)).Nodup
  signed : ∀ entry ∈ document.types, SignedMembers entry.2

theorem readsBack_document : ReadsBack decode encode Storable := by
  intro document hdocument
  have htypes : ∀ entry ∈ document.types, entry.2.WellFormed ∧ SignedMembers entry.2 :=
    fun entry hentry => ⟨hdocument.wellFormed.type entry hentry, hdocument.signed entry hentry⟩
  refine record_of_readsInTurn ?_ (by decide)
  exact .optional (readsBack_declaredTypes document.types ⟨hdocument.distinct, htypes⟩) <|
    .optional (readsBack_operation.list document.operations hdocument.wellFormed.operation) <|
    .optional (readsBack_interface.list document.interfaces hdocument.wellFormed.method) .nil

/-! ## Documents that have been read -/

theorem yields_integer : Yields integer fun value => Text.isSigned64 value = true := by
  intro source value h
  unfold integer at h
  split at h
  · split_ifs at h with hsigned
    cases h
    exact hsigned
  · cases h

theorem yields_member : Yields (record enumMemberFields {} .shape)
    fun m => Text.isSigned64 m.value = true := by
  refine yields_record ?_ (by decide)
  intro f hf
  simp only [enumMemberFields, List.mem_cons, List.not_mem_nil, or_false] at hf
  rcases hf with rfl | rfl
  · exact keeps_required (keeps_plain fun _ _ h => h)
  · exact keeps_required (keeps_field yields_integer fun _ _ h _ => h)

theorem yields_signedMembers : Yields declaredType SignedMembers := by
  have hobject : ∀ f ∈ objectFields, f.Keeps fun _ => True := fun _ _ _ _ _ _ _ => trivial
  have henum : ∀ f ∈ enumFields, f.Keeps fun decl =>
      ∀ m ∈ decl.members, Text.isSigned64 m.value = true := by
    intro f hf
    simp only [enumFields, List.mem_cons, List.not_mem_nil, or_false] at hf
    rcases hf with rfl | rfl
    · exact keeps_plain fun _ _ h => h
    · exact keeps_field yields_member.list fun _ _ hmembers _ => hmembers
  intro source type h
  exact (yields_declaredType_of hobject trivial henum (by simp) source type h).2

/-- A name that is declared again is not listed again. -/
theorem declaredTypesOnto_nodup : ∀ (source : Source.Members)
    (types found : List (String × DeclaredType)), (types.map (·.1)).Nodup →
      declaredTypesOnto types source = .ok found → (found.map (·.1)).Nodup := by
  intro source
  match source with
  | .close => intro types found htypes h; cases h; exact htypes
  | .cut flaw => intro types found _ h; cases h
  | .noKey fault => intro types found _ h; cases h
  | .member key value rest =>
    intro types found htypes h
    obtain ⟨name, -, h⟩ := bind_eq_ok h
    obtain ⟨decl, -, h⟩ := bind_eq_ok h
    exact declaredTypesOnto_nodup rest _ found (Keyed.nodup_keys_set htypes) h

theorem yields_distinct : Yields declaredTypes fun types => (types.map (·.1)).Nodup := by
  intro source types h
  unfold declaredTypes at h
  split at h
  · exact declaredTypesOnto_nodup _ [] types .nil h
  · cases h

/-- Whatever has been read can be stored. -/
theorem yields_storable : Yields decode Storable := by
  intro source document h
  have hdistinct : Yields decode fun document => (document.types.map (·.1)).Nodup := by
    refine yields_record ?_ .nil
    intro f hf
    simp only [documentFields, List.mem_cons, List.not_mem_nil, or_false] at hf
    rcases hf with rfl | rfl | rfl
    · exact keeps_field yields_distinct fun _ _ htypes _ => htypes
    all_goals exact keeps_plain fun _ _ h => h
  have hsigned : Yields decode fun document => ∀ entry ∈ document.types,
      SignedMembers entry.2 := by
    refine yields_record ?_ (by simp)
    intro f hf
    simp only [documentFields, List.mem_cons, List.not_mem_nil, or_false] at hf
    rcases hf with rfl | rfl | rfl
    · exact keeps_field (yields_declaredTypes yields_signedMembers) fun _ _ htypes _ => htypes
    all_goals exact keeps_plain fun _ _ h => h
  exact ⟨yields_document source document h, hdistinct source document h, hsigned source document h⟩

/-- The documents that can be stored are those that are read from some text. -/
theorem storable_iff {document : Document} :
    document.Storable ↔ ∃ source, decode source = .ok document := by
  constructor
  · exact fun h => ⟨_, readsBack_document document h⟩
  · rintro ⟨source, h⟩
    exact yields_storable source document h

/-- A document that has been read, from whatever text, is read back from what is written of it. -/
theorem decode_encode_of_decode {source : Source} {document : Document}
    (h : decode source = .ok document) : decode (.ofJson document.encode) = .ok document :=
  readsBack_document document (yields_storable source document h)

/-- Two object types, of which the one has a base that is void and the other has none, and an
enumeration, with an operation. -/
def stock : Document where
  types :=
    [("Shop.Item", .object { base := some .void }), ("Shop.Box", .object {}),
      ("Shop.State", .enum { members := [⟨"Open", 1⟩] })]
  operations :=
    [{ controller := "Items", route := "items", response := .array (.named "Shop.Item" []) }]

/-- That document in other words: the kind stands last, what is not needed is missing, the
enumeration is written as an array, and a type is declared again. -/
def stockJson : Json :=
  .object
    [("operations", .array [.object [("route", .string "items"), ("method", .string "GET"),
        ("controller", .string "Items"), ("response", .string " Shop.Item []")]]),
      ("types", .object
        [("Shop.Item", .object [("kind", .string "object")]),
          ("Shop.Box", .object [("note", .null), ("kind", .string "object")]),
          ("Shop.State", .array
            [.string "enum", .null, .array [.array [.string "Open", .ofInt 1]]]),
          ("Shop.Item", .object [("base", .string ""), ("kind", .string "object")])])]

theorem stock_readBack : decode (.ofJson stockJson) = .ok stock ∧
    decode (.ofJson stock.encode) = .ok stock := by
  have hread : decode (.ofJson stockJson) = .ok stock := by rfl
  exact ⟨hread, decode_encode_of_decode hread⟩

end Document

end DataContract
